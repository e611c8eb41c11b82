import Dummynet.Lib.Filling
import Dummynet.System.Links

/-!
# The answer to a get

`dummynet_get` measures with `compute_space` how much room the objects of a request take, allocates
as much, and copies the objects into it as far as they fit. `dummynet_list` offers larger and larger
buffers, and takes an answer for complete if the largest object would still fit behind it.

## Main definitions

* `GetObj`: the objects of an answer.
* `copyDataHelper`, `dummynetGet`: the objects that are copied, and the answer.
* `dummynetList`: the loop of the tool over larger and larger buffers.
* `selected`: all objects of a request.

## Main results

* `writes_copySched`, `writes_copyFs`: the objects of a scheduler or a flowset are copied as far as
  they fit.
-/

namespace Dummynet.Get

open Filling

/-! ### Objects -/

/-- An object of an answer. Of a profile there is the part without the samples, and of an instance
or a queue there is `struct dn_flow`. The list of the flowsets of a scheduler is a `text`, and a
`cut` is what remains of a list whose length does not fit into 16 bits: as many bytes as given. -/
inductive GetObj
  | link (l : DnLink)
  | profile (oid : DnId) (linkNr lossLevel samplesNo : BitVec 32)
  | fs (c : FsConfig)
  | sch (c : DnSch)
  | text (nrs : List (BitVec 32))
  | cut (nrs : List (BitVec 32)) (len : ℕ)
  | flow (id : BitVec 32) (fid : FlowId) (ni : DnFlow)
deriving DecidableEq

/-- `sizeof(struct dn_flow)`. -/
def sizeofFlow : ℕ := 96

/-- `sizeof(struct dn_id)`. -/
def sizeofId : ℕ := 8

/-- The number of bytes of an object. -/
def GetObj.len : GetObj → ℕ
  | link l => l.oid.len.toNat
  | profile .. => sizeofProfile.toNat
  | fs c => c.head.oid.len.toNat
  | sch c => c.oid.len.toNat
  | text nrs => sizeofId + 4 * nrs.length
  | cut _ len => len
  | flow .. => sizeofFlow

/-- An object that can be copied as it is: it has a length and a type, and a list has a length of
16 bits. -/
def GetObj.Sound : GetObj → Prop
  | link l => l.oid.len ≠ 0 ∧ l.oid.type ≠ 0
  | fs c => c.head.oid.len ≠ 0 ∧ c.head.oid.type ≠ 0
  | sch c => c.oid.len ≠ 0 ∧ c.oid.type ≠ 0
  | text nrs => sizeofId + 4 * nrs.length < 2 ^ 16
  | cut .. => False
  | _ => True

/-- The copy ends with an object that does not fit, if it is not one of many flows. -/
def GetObj.Ends : GetObj → Prop
  | flow .. => False
  | text nrs => sizeofId + 4 * nrs.length < 2 ^ 16
  | _ => True

theorem GetObj.Sound.len_pos {x : GetObj} (h : x.Sound) : 0 < x.len := by
  cases x with
  | link l => exact (BitVec.toNat_ne.1 h.1).bot_lt
  | profile => exact (by decide : 0 < sizeofProfile.toNat)
  | fs c => exact (BitVec.toNat_ne.1 h.1).bot_lt
  | sch c => exact (BitVec.toNat_ne.1 h.1).bot_lt
  | text nrs => exact Nat.add_pos_left (by decide) _
  | cut => exact h.elim
  | flow => exact (by decide : 0 < sizeofFlow)

/-! ### Copies -/

/-- The common part of the copies: an object with the given needs is refused, and the copy ends. -/
def put (cap need : ℕ) (ok : Bool) (x : GetObj) : Step GetObj := fun out =>
  if cap < size GetObj.len out + need ∨ ok = false then (true, out) else (false, out ++ [x])

/-- `copy_obj`, with what it makes of the object. -/
def copyObj (cap : ℕ) (oid : DnId) (x : GetObj) : Step GetObj :=
  put cap oid.len.toNat (oid.len ≠ 0 && oid.type ≠ 0) x

/-- The number of objects, as it is reported. -/
def entries {α : Type} : Objs α → BitVec 32
  | .null => 0
  | .one _ => 1
  | .table ht => BitVec.ofNat 32 ht.objs.length

/-- A link as it is copied, with its burst in bits. -/
def linkObj (s : Dn) (l : DnLink) : GetObj :=
  .link (if l.oid.type = 1 then { l with burst := l.burst.sdiv (burstScale s.parms.hz) } else l)

/-- A scheduler as it is copied, with the number of its instances. -/
def schObj (x : Schk) : GetObj :=
  .sch (if x.sch.oid.type = 3 then
    { x.sch with oid := { x.sch.oid with id := entries x.siht } } else x.sch)

/-- A flowset as it is copied, with the number of its queues. -/
def fsObj (f : Fsk) : GetObj :=
  .fs { f.fs with head := { f.head with oid := { f.head.oid with id := entries f.qht } } }

/-- A profile as it is copied. -/
def profileObj (p : DnProfile) : GetObj :=
  .profile { p.oid with len := sizeofProfile } p.linkNr p.lossLevel p.samplesNo

/-- An instance as it is copied. -/
def instObj (s : Dn) (p : SiPtr) : GetObj :=
  .flow (flowIdHash (s.inst p).fid) (s.inst p).fid (s.inst p).s.ni

/-- A queue as it is copied. -/
def queueObj (s : Dn) (a : QAddr) : GetObj :=
  .flow (flowIdHash ((s.inst a.si).qfid a.q)) ((s.inst a.si).qfid a.q)
    ((s.inst a.si).s.queue a.q).ni

/-- The numbers of the flowsets of a scheduler, without the internal one. -/
def fsNrs (s : Dn) (x : Schk) : List (BitVec 32) :=
  (x.fskList.map fun fp => (s.fsk fp).head.fsNr).filter fun n => n.toInt < dnMaxId.toInt

/-- `copy_profile`. -/
def copyProfile (cap : ℕ) : Option DnProfile → Step GetObj
  | none => Step.skip
  | some p => put cap sizeofProfile.toNat true (profileObj p)

/-- `copy_flowset` without the queues. -/
def copyFlowset (cap : ℕ) (s : Dn) : Option FskPtr → Step GetObj
  | none => Step.skip
  | some fp => copyObj cap (s.fsk fp).head.oid (fsObj (s.fsk fp))

/-- `copy_fsk_list`. The length is kept in 16 bits. -/
def copyFskList (cap : ℕ) (s : Dn) (x : Schk) : Step GetObj :=
  let nrs := fsNrs s x
  let space := sizeofId + 4 * nrs.length
  put cap space true (if space < 2 ^ 16 then .text nrs else .cut nrs (space % 2 ^ 16))

/-- `copy_si_cb`. -/
def copySiCb (cap : ℕ) (s : Dn) (p : SiPtr) : Step GetObj := put cap sizeofFlow true (instObj s p)

/-- `copy_si`. -/
def copySi (cap : ℕ) (s : Dn) (x : Schk) : Step GetObj :=
  (Step.scan (copySiCb cap s) x.siht.list).ignore

/-- `copy_q_cb`. -/
def copyQCb (cap : ℕ) (s : Dn) (a : QAddr) : Step GetObj := put cap sizeofFlow true (queueObj s a)

/-- `copy_q`. -/
def copyQ (cap : ℕ) (s : Dn) (f : Fsk) : Step GetObj :=
  (Step.scan (copyQCb cap s) f.qht.list).ignore

/-- What is listed: `pipe show`, `queue show` or `sched show`. -/
inductive ListKind
  | link
  | fs
  | sch
deriving DecidableEq

/-- Ranges of numbers, each with its first and its last one. -/
abbrev Ranges := List (BitVec 32 × BitVec 32)

/-- `copy_data_helper` on a scheduler. -/
def copySched (cap : ℕ) (isLink : Bool) (r : Ranges) (s : Dn) (sp : SchkPtr) : Step GetObj :=
  let x := s.schk sp
  if inRange isLink r (s.schedNr sp) then
    ((((copyObj cap x.link.oid (linkObj s x.link)).andThen (copyProfile cap x.profile)).andThen
      (copyFlowset cap s x.fs)).andThen
      ((copyObj cap x.sch.oid (schObj x)).andThen (copyFskList cap s x))).andThen (copySi cap s x)
  else Step.skip

/-- `copy_data_helper` on a flowset. -/
def copyFs (cap : ℕ) (r : Ranges) (s : Dn) (fp : FskPtr) : Step GetObj :=
  if inRange false r (s.fsk fp).head.fsNr then
    (copyFlowset cap s (some fp)).andThen (copyQ cap s (s.fsk fp))
  else Step.skip

/-- The scans of `dummynet_get` over the flowsets or the schedulers. -/
def copyAll (cap : ℕ) (kind : ListKind) (r : Ranges) (s : Dn) : Step GetObj :=
  match kind with
  | .fs => Step.scan (copyFs cap r s) (s.fshash.elim [] DnHt.ordered)
  | .link => Step.scan (copySched cap true r s) (s.schedhash.elim [] DnHt.ordered)
  | .sch => Step.scan (copySched cap false r s) (s.schedhash.elim [] DnHt.ordered)

/-! ### The objects of a request -/

/-- The objects of a scheduler: the link with its profile and the internal flowset, the scheduler,
the list of its flowsets and the instances. -/
def schedObjs (s : Dn) (sp : SchkPtr) : List GetObj :=
  let x := s.schk sp
  linkObj s x.link :: (x.profile.toList.map profileObj ++
    (x.fs.toList.map fun fp => fsObj (s.fsk fp)) ++
    [schObj x, .text (fsNrs s x)] ++ x.siht.list.map (instObj s))

/-- The objects of a flowset: the flowset and its queues. -/
def fsObjs (s : Dn) (fp : FskPtr) : List GetObj :=
  fsObj (s.fsk fp) :: (s.fsk fp).qht.list.map (queueObj s)

/-- The range that stands for all numbers. -/
def fullRange : ListKind → BitVec 32 × BitVec 32
  | .link => (1 + dnMaxId, dnMaxId - 1 + dnMaxId)
  | _ => (1, dnMaxId - 1)

/-- The ranges of a request. Without ranges, all numbers are meant. -/
def asked (kind : ListKind) (r : Ranges) : Ranges := if r = [] then [fullRange kind] else r

/-- All objects that some ranges select. -/
def selected (kind : ListKind) (r : Ranges) (s : Dn) : List GetObj :=
  match kind with
  | .fs => ((s.fshash.elim [] DnHt.ordered).filter fun fp =>
      inRange false r (s.fsk fp).head.fsNr).flatMap (fsObjs s)
  | .link => ((s.schedhash.elim [] DnHt.ordered).filter fun sp =>
      inRange true r (s.schedNr sp)).flatMap (schedObjs s)
  | .sch => ((s.schedhash.elim [] DnHt.ordered).filter fun sp =>
      inRange false r (s.schedNr sp)).flatMap (schedObjs s)

/-! ### Room -/

/-- `need += c * z`, in an `int`, where the product is divided by `d` as a `size_t`. -/
def addSpace (need c : ℤ) (z d : ℕ) : ℤ := (need + (c * z) % 2 ^ 64 / d).bmod (2 ^ 32)

/-- `compute_space`. -/
def computeSpace (kind : ListKind) (s : Dn) : ℤ :=
  match kind with
  | .fs =>
    let need := addSpace 0 s.fskCount sizeofFs.toNat 1
    addSpace need s.cfg.queueCount sizeofFlow 1
  | _ =>
    let need := addSpace 0 s.schkCount (sizeofFs.toNat + sizeofProfile.toNat) 2
    let need := addSpace need s.fskCount 4 1
    let need := addSpace need s.schkCount sizeofSch.toNat 2
    let need := addSpace need s.schkCount sizeofId 2
    let need := addSpace need s.schkCount sizeofLink.toNat 2
    addSpace need s.siCount sizeofFlow 1

/-- The loop of `dummynet_get` that allocates the answer, for a number of rounds, with what it has.
The result is the id of the answer with what was allocated, if anything was. -/
def spaceLoop (valsize : ℕ) (space : ℤ) : ℕ → Option ℤ → Option (ℤ × Option ℤ)
  | 0, start => some ((space + sizeofId).bmod (2 ^ 32), start)
  | n + 1, start =>
    if space < 0 then none
    else
      let need := (space + sizeofId).bmod (2 ^ 32)
      if need ≤ start.getD 0 then some (need, start)
      else if (valsize : ℤ) < need then some (need, none)
      else spaceLoop valsize space n (some need)

/-- The field `len` of a request. -/
def requestLen (r : Ranges) : ℕ := (sizeofId + 8 * r.length) % 2 ^ 16

/-- The ranges that `dummynet_get` sees in a request. -/
def seen (kind : ListKind) (r : Ranges) : Ranges :=
  if requestLen r = sizeofId then [fullRange kind] else r.take (requestLen r / 8 - 1)

/-- What `dummynet_get` takes for the space, before the header is added: what remains of the buffer
if there are ranges. -/
def spaceOf (kind : ListKind) (r : Ranges) (valsize : ℕ) (s : Dn) : ℤ :=
  if sizeofId < requestLen r then ((valsize : ℤ) - sizeofId).bmod (2 ^ 32) else computeSpace kind s

/-- `dummynet_get`: the id of the answer, its length and its objects. The state is the same each
time the lock is taken. -/
def dummynetGet (kind : ListKind) (r : Ranges) (valsize : ℕ) (s : Dn) :
    Option (ℕ × ℕ × List GetObj) :=
  if valsize < sizeofId ∨ 16 < requestLen r ∧ valsize < requestLen r then none
  else (spaceLoop valsize (spaceOf kind r valsize s) 10 none).map fun e =>
    match e.2 with
    | none => ((e.1 % 2 ^ 32).toNat, sizeofId, [])
    | some got =>
      let out := (copyAll (got.toNat - sizeofId) kind (seen kind r) s []).2
      ((e.1 % 2 ^ 32).toNat, sizeofId + size GetObj.len out, out)

/-! ### The loop of the tool -/

/-- The largest size of an object, for `dummynet_list`. -/
def maxSize : ℕ := max (max sizeofFs.toNat sizeofSch.toNat) sizeofFlow

/-- How one round of the loop in `dummynet_list` ends. The request may be longer than the buffer to
which it is copied. -/
inductive Round
  | overrun
  | done
  | ok (x : List GetObj)
  | retry (x : List GetObj)

/-- One round of the loop in `dummynet_list`. -/
def listRound (kind : ListKind) (r : Ranges) (buflen : ℕ) (s : Dn) : Round :=
  if buflen < requestLen r then .overrun
  else match dummynetGet kind r buflen s with
    | none => .done
    | some (id, l, x) =>
      if id ≤ sizeofId then .done
      else if (l + maxSize) % 2 ^ 32 ≤ buflen then .ok x else .retry x

/-- How `dummynet_list` ends: without an answer, with an answer that it takes for complete, from the
round with the given number, or with the last answer. -/
inductive ListExit
  | overrun
  | done
  | ok (i : ℕ) (x : List GetObj)
  | last (x : List GetObj)

/-- The loop of `dummynet_list`, for a number of rounds. The round `i` meets the state `ks i`. -/
def listLoop (kind : ListKind) (r : Ranges) (ks : ℕ → Dn) : ℕ → ℕ → ℕ → List GetObj → ListExit
  | 0, _, _, x => .last x
  | n + 1, i, buflen, _ =>
    match listRound kind r buflen (ks i) with
    | .overrun => .overrun
    | .done => .done
    | .ok x => .ok i x
    | .retry x => listLoop kind r ks n (i + 1) (2 * buflen % 2 ^ 32) x

/-- The length of the first buffer. Without ranges the kernel is asked. -/
def firstBuflen (kind : ListKind) (r : Ranges) (s : Dn) : Option ℕ :=
  if r ≠ [] then some (4 * 1024)
  else match dummynetGet kind r sizeofId s with
    | none => none
    | some (id, _, _) => if id ≤ sizeofId then none else some ((id + maxSize) % 2 ^ 32)

/-- `dummynet_list`. The first question meets the state `s`. -/
def dummynetList (kind : ListKind) (r : Ranges) (s : Dn) (ks : ℕ → Dn) : ListExit :=
  match firstBuflen kind r s with
  | none => .done
  | some buflen => listLoop kind r ks 20 0 buflen []

/-! ### What is copied -/

variable {cap : ℕ} {kind : ListKind} {r : Ranges} {s : Dn} {x : GetObj}

/-- A copy of a step writes these objects as far as they fit. -/
abbrev Copies (cap : ℕ) (f : Step GetObj) (os : List GetObj) : Prop :=
  Writes cap GetObj.len GetObj.Sound GetObj.Ends f os

theorem copies_put {need : ℕ} {ok : Bool} (hlen : x.len = need) (hok : x.Sound ↔ ok = true) :
    Copies cap (put cap need ok x) [x] := by
  refine Writes.one (fun out hx hfit => ?_) fun out hout hx =>
    ⟨true, [], ?_, ?_, fun _ => ⟨rfl, rfl⟩⟩
  · rw [put, if_neg]
    rw [hok.1 hx, ← hlen]
    simpa using hfit
  · rw [put, if_pos, List.append_nil]
    rw [hlen, hok] at hx
    by_cases ho : ok = true
    · exact .inl (not_le.1 fun hle => hx ⟨ho, hle⟩)
    · exact .inr (Bool.eq_false_iff.2 ho)
  · rwa [List.append_nil]

theorem copies_linkObj (l : DnLink) :
    Copies cap (copyObj cap l.oid (linkObj s l)) [linkObj s l] := by
  unfold copyObj linkObj
  split_ifs <;> exact copies_put rfl (by simp [GetObj.Sound])

theorem copies_schObj (y : Schk) : Copies cap (copyObj cap y.sch.oid (schObj y)) [schObj y] := by
  unfold copyObj schObj
  split_ifs <;> exact copies_put rfl (by simp [GetObj.Sound])

theorem copies_copyProfile (p : Option DnProfile) :
    Copies cap (copyProfile cap p) (p.toList.map profileObj) := by
  cases p with
  | none => exact .skip
  | some p => exact copies_put rfl (by simp [GetObj.Sound, profileObj])

theorem copies_copyFlowset (o : Option FskPtr) :
    Copies cap (copyFlowset cap s o) (o.toList.map fun fp => fsObj (s.fsk fp)) := by
  cases o with
  | none => exact .skip
  | some fp => exact copies_put rfl (by simp [GetObj.Sound, fsObj])

/-- A list that is too long for 16 bits is written, but what remains of it is something else. -/
theorem copies_copyFskList (y : Schk) :
    Copies cap (copyFskList cap s y) [.text (fsNrs s y)] := by
  unfold copyFskList
  dsimp only
  split_ifs with hshort
  · exact copies_put rfl (by simpa [GetObj.Sound] using hshort)
  · refine Writes.one (fun out hx => absurd hx hshort) fun out hout _ => ?_
    unfold put
    by_cases hfit : cap < size GetObj.len out + (sizeofId + 4 * (fsNrs s y).length)
    · rw [if_pos (.inl hfit)]
      exact ⟨true, [], by rw [List.append_nil], by rwa [List.append_nil], fun _ => ⟨rfl, rfl⟩⟩
    · rw [if_neg (by simpa using hfit)]
      have hle := not_lt.1 hfit
      have hmod := Nat.mod_le (sizeofId + 4 * (fsNrs s y).length) (2 ^ 16)
      refine ⟨false, _, rfl, ?_, fun he => absurd he hshort⟩
      rw [size_append, size_cons, size_nil, add_zero]
      exact (Nat.add_le_add_left hmod _).trans hle

theorem copies_copySi (y : Schk) : Copies cap (copySi cap s y) (y.siht.list.map (instObj s)) := by
  refine Writes.ignore ?_ ?_
  · exact Writes.scan_map fun p => copies_put rfl (by simp [GetObj.Sound, instObj])
  · intro o ho
    obtain ⟨p, -, rfl⟩ := List.mem_map.1 ho
    exact id

theorem copies_copyQ (f : Fsk) : Copies cap (copyQ cap s f) (f.qht.list.map (queueObj s)) := by
  refine Writes.ignore ?_ ?_
  · exact Writes.scan_map fun a => copies_put rfl (by simp [GetObj.Sound, queueObj])
  · intro o ho
    obtain ⟨p, -, rfl⟩ := List.mem_map.1 ho
    exact id

theorem writes_copySched (isLink : Bool) (sp : SchkPtr) : Copies cap (copySched cap isLink r s sp)
    (if inRange isLink r (s.schedNr sp) then schedObjs s sp else []) := by
  unfold copySched
  dsimp only
  split_ifs
  · have hlink : Copies cap _ _ := (copies_linkObj (s := s) (s.schk sp).link).andThen
      (copies_copyProfile (s.schk sp).profile)
    have hsch : Copies cap _ _ := (copies_schObj (s.schk sp)).andThen
      (copies_copyFskList (s := s) (s.schk sp))
    have hall := ((hlink.andThen (copies_copyFlowset (s := s) (s.schk sp).fs)).andThen hsch).andThen
      (copies_copySi (s := s) (s.schk sp))
    rw [schedObjs]
    simpa using hall
  · exact .skip

theorem writes_copyFs (fp : FskPtr) : Copies cap (copyFs cap r s fp)
    (if inRange false r (s.fsk fp).head.fsNr then fsObjs s fp else []) := by
  unfold copyFs
  split_ifs
  · exact (copies_copyFlowset (some fp)).andThen (copies_copyQ _)
  · exact .skip

/-- The scan copies the selected objects, as far as they fit. -/
theorem writes_copyAll : Copies cap (copyAll cap kind r s) (selected kind r s) := by
  have hfilter : ∀ {β : Type} (l : List β) (p : β → Bool) (g : β → List GetObj),
      (l.filter p).flatMap g = l.flatMap fun b => if p b then g b else [] := by
    intro β l p g
    induction l with
    | nil => rfl
    | cons b l ih =>
      rw [List.filter_cons, List.flatMap_cons]
      split_ifs
      · rw [List.flatMap_cons, ih]
      · exact ih
  cases kind with
  | fs =>
    simp only [selected, copyAll, hfilter]
    exact Writes.scan fun fp _ => writes_copyFs fp
  | link =>
    simp only [selected, copyAll, hfilter]
    exact Writes.scan fun sp _ => writes_copySched _ sp
  | sch =>
    simp only [selected, copyAll, hfilter]
    exact Writes.scan fun sp _ => writes_copySched _ sp

end Dummynet.Get
