import Dummynet.Ipfw.Ruleset
import Dummynet.Lib.Runs
import Mathlib

/-!
# NAT instances

The configuration of NAT instances in `ip_fw_nat.c`. A request to configure an instance takes it out of
the list, if it is there, drops the lock while it works on it, and hooks it into the list again; a
request to delete one frees it after the lock is dropped. Requests interleave at these points.

## Main definitions

* `CfgNat`, `NatTask`: an instance, and where a request is.
* `NatSys`: the list of instances with the requests that are under way, and the ruleset.
* `flushNatPtrs`, `NatSys.next`: `flush_nat_ptrs`, and the next atomic section of a request.

## Main results

* `NatSys.next_cases`: what a section does.
* `NatSys.natCfg_unique`: ids are unique if no two configurations of one id overlap.
-/

namespace Ipfw

abbrev NatPtr := BitVec 64

/-- `struct cfg_nat`, without its redirections and its `libalias`. -/
structure CfgNat where
  id : BitVec 32 := 0
  ip : BitVec 32 := 0
  redirCnt : BitVec 32 := 0
  mode : BitVec 32 := 0
  ifName : List (BitVec 8) := []
  deriving DecidableEq

/-- Where a request is: a configuration with the data `ser` from user space before its first locked
section, after it with the instance at `p`, and when the instance is configured; a deletion before its
locked section and after it; or it has returned. -/
inductive NatTask
  | cfg (ser : CfgNat)
  | unhooked (ser : CfgNat) (p : NatPtr)
  | configured (p : NatPtr)
  | del (i : BitVec 32)
  | unlinked (p : NatPtr)
  | done (err : ℕ)
  deriving DecidableEq

/-- The instances, those in `chain->nat` and those in use, the requests, and the ruleset, whose
`O_NAT` instructions store pointers to instances. -/
structure NatSys where
  rs : Ruleset
  nat : List NatPtr
  inst : NatPtr → CfgNat
  used : Finset NatPtr
  task : ℕ → Option NatTask

/-- What `malloc` returns for a new instance, and whether `LibAliasInit` succeeds. -/
structure NatAlloc where
  ptr : Option NatPtr
  lib : Bool

/-- `lookup_nat`. -/
def lookupNat (inst : NatPtr → CfgNat) (nat : List NatPtr) (id : BitVec 32) : Option NatPtr :=
  nat.find? fun p => decide ((inst p).id = id)

/-! ### Stored pointers -/

/-- The field `nat` of an `O_NAT` instruction at `p`. -/
def natPtrAt (w : ℕ → BitVec 32) (p : ℕ) : NatPtr := w (p + 3) ++ w (p + 2)

/-- The instruction at `p` with another pointer. -/
def setNatPtr (w : ℕ → BitVec 32) (p : ℕ) (t : NatPtr) : ℕ → BitVec 32 :=
  Function.update (Function.update w (p + 2) (t.extractLsb' 0 32)) (p + 3) (t.extractLsb' 32 32)

/-- `flush_nat_ptrs` on one rule: only the instruction at `ACTION_PTR` is looked at. -/
def flushNatPtr (inst : NatPtr → CfgNat) (ix : BitVec 32) (actOfs : ℕ) (w : ℕ → BitVec 32) :
    ℕ → BitVec 32 :=
  if (Insn.ofWord (w actOfs)).opcode = some .nat ∧ natPtrAt w actOfs ≠ 0 ∧
      (ix.slt 0 ∨ (inst (natPtrAt w actOfs)).id = ix) then setNatPtr w actOfs 0
  else w

/-- `flush_nat_ptrs`. -/
def flushNatPtrs (inst : NatPtr → CfgNat) (ix : BitVec 32) (s : Ruleset) : Ruleset :=
  { s with words := fun f =>
      if f ∈ s.chain.map then flushNatPtr inst ix (s.chain.rule f).actOfs.toNat (s.words f)
      else s.words f }

/-! ### Requests -/

namespace NatSys

/-- The request `k` goes on. -/
def setTask (σ : NatSys) (k : ℕ) (t : NatTask) : NatSys :=
  { σ with task := Function.update σ.task k (some t) }

/-- The instance at `p`, with the id `i`, is taken out of the list. -/
def unhook (σ : NatSys) (i : BitVec 32) (p : NatPtr) : NatSys :=
  { σ with nat := σ.nat.erase p, rs := flushNatPtrs σ.inst i σ.rs }

/-- `ipfw_nat_cfg`, the first locked section. -/
def cfgFind (σ : NatSys) (k : ℕ) (ser : CfgNat) (a : NatAlloc) : NatSys :=
  match lookupNat σ.inst σ.nat ser.id with
  | some p => (σ.unhook ser.id p).setTask k (.unhooked ser p)
  | none =>
    match a.ptr with
    | none => σ.setTask k (.done enospc)
    | some p =>
      if !a.lib then σ.setTask k (.done einval)
      else ({ σ with inst := Function.update σ.inst p {}, used := insert p σ.used }).setTask k
        (.unhooked ser p)

/-- `ipfw_nat_cfg`, without the lock. -/
def cfgFill (σ : NatSys) (k : ℕ) (ser : CfgNat) (p : NatPtr) : NatSys :=
  ({ σ with inst := Function.update σ.inst p ser }).setTask k (.configured p)

/-- `ipfw_nat_cfg`, the second locked section. -/
def cfgHook (σ : NatSys) (k : ℕ) (p : NatPtr) : NatSys :=
  ({ σ with nat := p :: σ.nat }).setTask k (.done 0)

/-- `ipfw_nat_del`, the locked section. -/
def delFind (σ : NatSys) (k : ℕ) (i : BitVec 32) : NatSys :=
  match lookupNat σ.inst σ.nat i with
  | none => σ.setTask k (.done einval)
  | some p => (σ.unhook i p).setTask k (.unlinked p)

/-- `ipfw_nat_del`, without the lock. -/
def delFree (σ : NatSys) (k : ℕ) (p : NatPtr) : NatSys :=
  ({ σ with used := σ.used.erase p }).setTask k (.done 0)

/-- The next atomic section of the request `k`. -/
def next (σ : NatSys) (k : ℕ) (a : NatAlloc) : NatSys :=
  match σ.task k with
  | some (.cfg ser) => σ.cfgFind k ser a
  | some (.unhooked ser p) => σ.cfgFill k ser p
  | some (.configured p) => σ.cfgHook k p
  | some (.del i) => σ.delFind k i
  | some (.unlinked p) => σ.delFree k p
  | some (.done _) | none => σ

end NatSys

/-- What can happen: a request arrives, with a number of its own, or one goes on. -/
inductive NatOp
  | cfg (k : ℕ) (ser : CfgNat)
  | del (k : ℕ) (i : BitVec 32)
  | next (k : ℕ) (a : NatAlloc)

namespace NatSys

/-- One step. -/
def step (σ : NatSys) : NatOp → Option (Unit × NatSys)
  | .cfg k ser => some ((), σ.setTask k (.cfg ser))
  | .del k i => some ((), σ.setTask k (.del i))
  | .next k a => some ((), σ.next k a)

/-- What the environment promises: a request has a new number, and `malloc` returns memory that is
not in use. -/
def Promised (σ : NatSys) : NatOp → Prop
  | .cfg k _ | .del k _ => σ.task k = none
  | .next _ a => ∀ p ∈ a.ptr, p ≠ 0 ∧ p ∉ σ.used

instance (σ : NatSys) : (op : NatOp) → Decidable (σ.Promised op)
  | .cfg k _ | .del k _ => inferInstanceAs (Decidable (σ.task k = none))
  | .next _ ⟨none, _⟩ => .isTrue nofun
  | .next _ ⟨some p, _⟩ => decidable_of_iff (p ≠ 0 ∧ p ∉ σ.used) (by simp [Promised])

/-- The state without instances and requests. -/
def init (rs : Ruleset) : NatSys := ⟨rs, [], fun _ => {}, ∅, fun _ => none⟩

end NatSys

/-- The instance that a request has, and that is not in the list. -/
def NatTask.held : NatTask → Option NatPtr
  | .unhooked _ p | .configured p | .unlinked p => some p
  | .cfg _ | .del _ | .done _ => none

/-- The id of the instance that a request is to hook into the list. -/
def NatTask.target (inst : NatPtr → CfgNat) : NatTask → Option (BitVec 32)
  | .unhooked ser _ => some ser.id
  | .configured p => some (inst p).id
  | .cfg _ | .del _ | .unlinked _ | .done _ => none

namespace NatSys

variable {σ τ : NatSys} {k j : ℕ} {a : NatAlloc} {ser : CfgNat} {p q : NatPtr} {i : BitVec 32}
  {t : NatTask}

/-- The instance that the request `k` has. -/
def held (σ : NatSys) (k : ℕ) : Option NatPtr := (σ.task k).bind NatTask.held

/-- The id that the request `k` configures, between its two locked sections. -/
def target (σ : NatSys) (k : ℕ) : Option (BitVec 32) := (σ.task k).bind (NatTask.target σ.inst)

/-- No request is under way. -/
def Quiet (σ : NatSys) : Prop := ∀ k t, σ.task k = some t → ∃ err, t = .done err

/-- The step is not the start of a configuration whose id another request configures. -/
def Alone (σ : NatSys) : NatOp → Prop
  | .next k _ => ∀ ser, σ.task k = some (.cfg ser) → ∀ j, σ.target j ≠ some ser.id
  | .cfg _ _ | .del _ _ => True

/-- The step is the locked section of a deletion of `i`. -/
def Deletes (σ : NatSys) (i : BitVec 32) : NatOp → Prop
  | .next k _ => σ.task k = some (.del i)
  | .cfg _ _ | .del _ _ => False

/-! ### What a section does -/

theorem lookupNat_some {inst : NatPtr → CfgNat} {nat : List NatPtr}
    (h : lookupNat inst nat i = some p) : p ∈ nat ∧ (inst p).id = i :=
  ⟨List.mem_of_find?_eq_some h, of_decide_eq_true (List.find?_some h :)⟩

theorem lookupNat_none {inst : NatPtr → CfgNat} {nat : List NatPtr} :
    lookupNat inst nat i = none ↔ ∀ p ∈ nat, (inst p).id ≠ i := by
  simp [lookupNat]

/-- The outcomes of a section of the request `k`. -/
inductive Section (σ : NatSys) (k : ℕ) (a : NatAlloc) : NatSys → Prop
  | found {ser : CfgNat} {p : NatPtr} : σ.task k = some (.cfg ser) → p ∈ σ.nat →
      (σ.inst p).id = ser.id → Section σ k a ((σ.unhook ser.id p).setTask k (.unhooked ser p))
  | created {ser : CfgNat} {p : NatPtr} : σ.task k = some (.cfg ser) →
      (∀ q ∈ σ.nat, (σ.inst q).id ≠ ser.id) → a.ptr = some p →
      Section σ k a (({ σ with inst := Function.update σ.inst p {}, used := insert p σ.used }).setTask
        k (.unhooked ser p))
  | failed {ser : CfgNat} {err : ℕ} : σ.task k = some (.cfg ser) → err ≠ 0 →
      Section σ k a (σ.setTask k (.done err))
  | filled {ser : CfgNat} {p : NatPtr} : σ.task k = some (.unhooked ser p) →
      Section σ k a (σ.cfgFill k ser p)
  | hooked {p : NatPtr} : σ.task k = some (.configured p) → Section σ k a (σ.cfgHook k p)
  | missed {i : BitVec 32} : σ.task k = some (.del i) → (∀ q ∈ σ.nat, (σ.inst q).id ≠ i) →
      Section σ k a (σ.setTask k (.done einval))
  | removed {i : BitVec 32} {p : NatPtr} : σ.task k = some (.del i) → p ∈ σ.nat →
      (σ.inst p).id = i → Section σ k a ((σ.unhook i p).setTask k (.unlinked p))
  | freed {p : NatPtr} : σ.task k = some (.unlinked p) → Section σ k a (σ.delFree k p)
  | idle : (∀ t, σ.task k = some t → ∃ err, t = .done err) → Section σ k a σ

/-- **The sections** of the requests. -/
theorem next_cases (σ : NatSys) (k : ℕ) (a : NatAlloc) : Section σ k a (σ.next k a) := by
  unfold next
  split
  next ser htask =>
    unfold cfgFind
    split
    next p hp => exact .found htask (lookupNat_some hp).1 (lookupNat_some hp).2
    next hnone =>
      split
      next => exact .failed htask (by decide)
      next p hp =>
        split_ifs
        · exact .failed htask (by decide)
        · exact .created htask (lookupNat_none.1 hnone) hp
  next ser p htask => exact .filled htask
  next p htask => exact .hooked htask
  next i htask =>
    unfold delFind
    split
    next hnone => exact .missed htask (lookupNat_none.1 hnone)
    next p hp => exact .removed htask (lookupNat_some hp).1 (lookupNat_some hp).2
  next p htask => exact .freed htask
  next err htask => exact .idle fun t ht => ⟨err, Option.some.inj (ht.symm.trans htask)⟩
  next htask => exact .idle fun t ht => by rw [htask] at ht; cases ht

/-! ### Who has an instance -/

/-- An instance in use is in the list or belongs to one request at most. -/
structure Owned (σ : NatSys) : Prop where
  nodup : σ.nat.Nodup
  hooked : ∀ p ∈ σ.nat, p ∈ σ.used
  held : ∀ k p, σ.held k = some p → p ∈ σ.used ∧ p ∉ σ.nat
  sole : ∀ k j p, σ.held k = some p → σ.held j = some p → k = j

/-- The request `k` goes on in a new state. -/
structure Goes (σ τ : NatSys) (k : ℕ) (t : NatTask) : Prop where
  task : τ.task = Function.update σ.task k (some t)

theorem Goes.held_self (h : Goes σ τ k t) : τ.held k = t.held := by
  rw [NatSys.held, h.task, Function.update_self]
  rfl

theorem Goes.held_of_ne (h : Goes σ τ k t) (hj : j ≠ k) : τ.held j = σ.held j := by
  rw [NatSys.held, h.task, Function.update_of_ne hj]
  rfl

theorem Goes.target_self (h : Goes σ τ k t) : τ.target k = t.target τ.inst := by
  rw [target, h.task, Function.update_self]
  rfl

/-- The id that a request configures does not change, unless the instance that it has changes. -/
theorem Goes.target_of_ne (h : Goes σ τ k t) (hj : j ≠ k)
    (hinst : ∀ p, σ.held j = some p → τ.inst p = σ.inst p) : τ.target j = σ.target j := by
  rw [target, target, h.task, Function.update_of_ne hj]
  rw [NatSys.held] at hinst
  cases htask : σ.task j with
  | none => rfl
  | some t' =>
    rw [htask] at hinst
    cases t' with
    | configured p => exact congrArg (fun x : CfgNat => some x.id) (hinst p rfl)
    | _ => rfl

theorem goes_setTask (h : τ.task = σ.task) : Goes σ (τ.setTask k t) k t :=
  ⟨by rw [setTask, h]⟩

theorem Owned.goes (h : σ.Owned) (hgo : Goes σ τ k t) (hnodup : τ.nat.Nodup)
    (hused : ∀ p ∈ τ.nat, p ∈ τ.used)
    (hmine : ∀ p, t.held = some p → p ∈ τ.used ∧ p ∉ τ.nat ∧ ∀ j, j ≠ k → σ.held j ≠ some p)
    (hother : ∀ j p, j ≠ k → σ.held j = some p → p ∈ τ.used ∧ p ∉ τ.nat) : τ.Owned := by
  refine ⟨hnodup, hused, fun j p hj => ?_, fun j j' p hj hj' => ?_⟩
  · rcases eq_or_ne j k with rfl | hne
    · rw [hgo.held_self] at hj
      exact ⟨(hmine p hj).1, (hmine p hj).2.1⟩
    · rw [hgo.held_of_ne hne] at hj
      exact hother j p hne hj
  · rcases eq_or_ne j k with rfl | hne
    · rw [hgo.held_self] at hj
      by_contra hne'
      rw [hgo.held_of_ne (Ne.symm hne')] at hj'
      exact (hmine p hj).2.2 j' (Ne.symm hne') hj'
    · rw [hgo.held_of_ne hne] at hj
      rcases eq_or_ne j' k with rfl | hne'
      · rw [hgo.held_self] at hj'
        exact absurd hj ((hmine p hj').2.2 j hne)
      · rw [hgo.held_of_ne hne'] at hj'
        exact h.sole j j' p hj hj'

theorem held_of_task (h : σ.task k = some t) : σ.held k = t.held := by
  rw [NatSys.held, h]
  rfl

theorem Owned.not_held_of_mem (h : σ.Owned) (hp : p ∈ σ.nat) (j : ℕ) : σ.held j ≠ some p :=
  fun hj => (h.held j p hj).2 hp

theorem Owned.not_held_of_ne (h : σ.Owned) (hk : σ.held k = some p) (hj : j ≠ k) :
    σ.held j ≠ some p := fun hj' => hj (h.sole j k p hj' hk)

/-- **Ownership** is kept by every section. -/
theorem Owned.next (h : σ.Owned) (hp : σ.Promised (.next k a)) : (σ.next k a).Owned := by
  have herase : ∀ p, ∀ q ∈ σ.nat.erase p, q ∈ σ.nat := fun p q => List.mem_of_mem_erase
  have hsec := next_cases σ k a
  generalize σ.next k a = τ at hsec ⊢
  cases hsec with
  | @found ser p htask hmem hid =>
    refine h.goes (goes_setTask rfl) (h.nodup.erase p) (fun q hq => h.hooked q (herase p q hq))
      (fun q hq => ?_) fun j q hne hj => ?_
    · obtain rfl := Option.some.inj hq
      exact ⟨h.hooked p hmem, h.nodup.not_mem_erase, fun j _ => h.not_held_of_mem hmem j⟩
    · exact ⟨(h.held j q hj).1, fun hq => (h.held j q hj).2 (herase p q hq)⟩
  | @created ser p htask hnone hptr =>
    obtain ⟨-, hfresh⟩ := hp p hptr
    refine h.goes (goes_setTask rfl) h.nodup (fun q hq => Finset.mem_insert_of_mem (h.hooked q hq))
      (fun q hq => ?_) fun j q hne hj => ?_
    · obtain rfl := Option.some.inj hq
      exact ⟨Finset.mem_insert_self _ _, fun hq => hfresh (h.hooked p hq),
        fun j _ hj => hfresh (h.held j p hj).1⟩
    · exact ⟨Finset.mem_insert_of_mem (h.held j q hj).1, (h.held j q hj).2⟩
  | failed htask _ | missed htask _ =>
    exact h.goes (goes_setTask rfl) h.nodup h.hooked nofun fun j q _ => h.held j q
  | @filled ser p htask =>
    have hk := held_of_task htask
    refine h.goes (goes_setTask rfl) h.nodup h.hooked (fun q hq => ?_) fun j q _ => h.held j q
    obtain rfl := Option.some.inj hq
    exact ⟨(h.held k p hk).1, (h.held k p hk).2, fun j => h.not_held_of_ne hk⟩
  | @hooked p htask =>
    have hk := held_of_task htask
    refine h.goes (goes_setTask rfl) (List.nodup_cons.2 ⟨(h.held k p hk).2, h.nodup⟩)
      (fun q hq => ?_) nofun fun j q hne hj => ⟨(h.held j q hj).1, fun hq => ?_⟩
    · rcases List.mem_cons.1 hq with rfl | hq
      · exact (h.held k q hk).1
      · exact h.hooked q hq
    · rcases List.mem_cons.1 hq with rfl | hq
      · exact h.not_held_of_ne hk hne hj
      · exact (h.held j q hj).2 hq
  | @removed i p htask hmem hid =>
    refine h.goes (goes_setTask rfl) (h.nodup.erase p) (fun q hq => h.hooked q (herase p q hq))
      (fun q hq => ?_) fun j q hne hj => ?_
    · obtain rfl := Option.some.inj hq
      exact ⟨h.hooked p hmem, h.nodup.not_mem_erase, fun j _ => h.not_held_of_mem hmem j⟩
    · exact ⟨(h.held j q hj).1, fun hq => (h.held j q hj).2 (herase p q hq)⟩
  | @freed p htask =>
    have hk := held_of_task htask
    refine h.goes (goes_setTask rfl) h.nodup (fun q hq => ?_) nofun fun j q hne hj => ?_
    · refine Finset.mem_erase.2 ⟨?_, h.hooked q hq⟩
      rintro rfl
      exact (h.held k q hk).2 hq
    · refine ⟨Finset.mem_erase.2 ⟨?_, (h.held j q hj).1⟩, (h.held j q hj).2⟩
      rintro rfl
      exact h.not_held_of_ne hk hne hj
  | idle => exact h

/-! ### Unique ids -/

/-- No two instances in the list have one id, and the id that a request configures is not in the list
and configured by no other request. -/
structure Unique (σ : NatSys) : Prop where
  ids : ∀ p ∈ σ.nat, ∀ q ∈ σ.nat, (σ.inst p).id = (σ.inst q).id → p = q
  apart : ∀ k i, σ.target k = some i → ∀ p ∈ σ.nat, (σ.inst p).id ≠ i
  one : ∀ k j i, σ.target k = some i → σ.target j = some i → k = j

theorem Unique.goes (h : σ.Unique) (hgo : Goes σ τ k t)
    (hother : ∀ j, j ≠ k → τ.target j = σ.target j)
    (hids : ∀ p ∈ τ.nat, ∀ q ∈ τ.nat, (τ.inst p).id = (τ.inst q).id → p = q)
    (hapart : ∀ j i, j ≠ k → σ.target j = some i → ∀ p ∈ τ.nat, (τ.inst p).id ≠ i)
    (hmine : ∀ i, t.target τ.inst = some i → (∀ p ∈ τ.nat, (τ.inst p).id ≠ i) ∧
      ∀ j, j ≠ k → σ.target j ≠ some i) : τ.Unique := by
  refine ⟨hids, fun j i hj => ?_, fun j j' i hj hj' => ?_⟩
  · rcases eq_or_ne j k with rfl | hne
    · rw [hgo.target_self] at hj
      exact (hmine i hj).1
    · rw [hother j hne] at hj
      exact hapart j i hne hj
  · rcases eq_or_ne j k with rfl | hne
    · rw [hgo.target_self] at hj
      by_contra hne'
      rw [hother j' (Ne.symm hne')] at hj'
      exact (hmine i hj).2 j' (Ne.symm hne') hj'
    · rw [hother j hne] at hj
      rcases eq_or_ne j' k with rfl | hne'
      · rw [hgo.target_self] at hj'
        exact absurd hj ((hmine i hj').2 j hne)
      · rw [hother j' hne'] at hj'
        exact h.one j j' i hj hj'

theorem target_of_task (h : σ.task k = some t) : σ.target k = t.target σ.inst := by
  rw [target, h]
  rfl

/-- The other requests keep their ids if the instances that they have are not written. -/
theorem Goes.target_of_inst (hgo : Goes σ τ k t) (hinst : τ.inst = σ.inst) (hj : j ≠ k) :
    τ.target j = σ.target j :=
  hgo.target_of_ne hj fun p _ => by rw [hinst]

/-- The other requests keep their ids if an instance is written that they do not have. -/
theorem Goes.target_of_update {x : CfgNat} (hgo : Goes σ τ k t)
    (hinst : τ.inst = Function.update σ.inst p x) (hp : σ.held j ≠ some p) (hj : j ≠ k) :
    τ.target j = σ.target j := by
  refine hgo.target_of_ne hj fun q hq => ?_
  rw [hinst]
  refine Function.update_of_ne ?_ _ _
  rintro rfl
  exact hp hq

/-- **Uniqueness** is kept by a section that does not start to configure an id which another request
configures. -/
theorem Unique.next (h : σ.Unique) (ho : σ.Owned) (hp : σ.Promised (.next k a))
    (halone : σ.Alone (.next k a)) : (σ.next k a).Unique := by
  have herase : ∀ p, ∀ q ∈ σ.nat.erase p, q ∈ σ.nat := fun p q => List.mem_of_mem_erase
  have hsec := next_cases σ k a
  generalize σ.next k a = τ at hsec ⊢
  cases hsec with
  | @found ser p htask hmem hid =>
    have hgo : Goes σ _ k (.unhooked ser p) := goes_setTask (τ := σ.unhook ser.id p) rfl
    refine h.goes hgo (fun j => hgo.target_of_inst rfl)
      (fun q hq q' hq' => h.ids q (herase p q hq) q' (herase p q' hq'))
      (fun j i _ hj q hq => h.apart j i hj q (herase p q hq)) fun i hi => ?_
    obtain rfl := Option.some.inj hi
    refine ⟨fun q hq he => ?_, fun j _ => halone ser htask j⟩
    have hqp := h.ids q (herase p q hq) p hmem (he.trans hid.symm)
    exact ho.nodup.not_mem_erase (hqp ▸ hq)
  | @created ser p htask hnone hptr =>
    obtain ⟨-, hfresh⟩ := hp p hptr
    have hne : ∀ q ∈ σ.nat, q ≠ p := by
      rintro q hq rfl
      exact hfresh (ho.hooked q hq)
    have hinst : ∀ q ∈ σ.nat, Function.update σ.inst p {} q = σ.inst q := fun q hq =>
      Function.update_of_ne (hne q hq) _ _
    have hgo : Goes σ _ k (.unhooked ser p) := goes_setTask
      (τ := { σ with inst := Function.update σ.inst p {}, used := insert p σ.used }) rfl
    refine h.goes hgo (fun j hj => hgo.target_of_update (p := p) rfl
      (fun hq => hfresh (ho.held j p hq).1) hj) (fun q hq q' hq' he => ?_)
      (fun j i _ hj q hq => ?_) fun i hi => ?_
    · change (Function.update σ.inst p {} q).id = (Function.update σ.inst p {} q').id at he
      rw [hinst q hq, hinst q' hq'] at he
      exact h.ids q hq q' hq' he
    · change (Function.update σ.inst p {} q).id ≠ i
      rw [hinst q hq]
      exact h.apart j i hj q hq
    · obtain rfl := Option.some.inj hi
      refine ⟨fun q hq => ?_, fun j _ => halone ser htask j⟩
      change (Function.update σ.inst p {} q).id ≠ ser.id
      rw [hinst q hq]
      exact hnone q hq
  | failed htask _ | missed htask _ =>
    exact h.goes (goes_setTask rfl) (fun j => (goes_setTask rfl).target_of_inst rfl) h.ids
      (fun j i _ => h.apart j i) nofun
  | @filled ser p htask =>
    have hk := held_of_task htask
    have htarget := target_of_task htask
    have hinst : ∀ q ∈ σ.nat, Function.update σ.inst p ser q = σ.inst q := by
      intro q hq
      refine Function.update_of_ne ?_ _ _
      rintro rfl
      exact (ho.held k q hk).2 hq
    have hgo : Goes σ (σ.cfgFill k ser p) k (.configured p) := goes_setTask rfl
    refine h.goes hgo (fun j hj => hgo.target_of_update (p := p) rfl (ho.not_held_of_ne hk hj) hj)
      (fun q hq q' hq' he => ?_) (fun j i _ hj q hq => ?_) fun i hi => ?_
    · change (Function.update σ.inst p ser q).id = (Function.update σ.inst p ser q').id at he
      rw [hinst q hq, hinst q' hq'] at he
      exact h.ids q hq q' hq' he
    · change (Function.update σ.inst p ser q).id ≠ i
      rw [hinst q hq]
      exact h.apart j i hj q hq
    · have hser : ser.id = i := by
        have hself : (Function.update σ.inst p ser p).id = i := Option.some.inj hi
        rwa [Function.update_self] at hself
      subst hser
      refine ⟨fun q hq => ?_, fun j hne hj => hne (h.one j k _ hj htarget)⟩
      change (Function.update σ.inst p ser q).id ≠ ser.id
      rw [hinst q hq]
      exact h.apart k _ htarget q hq
  | @hooked p htask =>
    have htarget := target_of_task htask
    refine h.goes (goes_setTask rfl) (fun j => (goes_setTask rfl).target_of_inst rfl)
      (fun q hq q' hq' he => ?_) (fun j i hne hj q hq => ?_) nofun
    · rcases List.mem_cons.1 hq with rfl | hmem <;> rcases List.mem_cons.1 hq' with rfl | hmem'
      · rfl
      · exact absurd he.symm (h.apart k _ htarget q' hmem')
      · exact absurd he (h.apart k _ htarget q hmem)
      · exact h.ids q hmem q' hmem' he
    · rcases List.mem_cons.1 hq with rfl | hq
      · rintro rfl
        exact hne (h.one j k _ hj htarget)
      · exact h.apart j i hj q hq
  | @removed i p htask hmem hid =>
    have hgo : Goes σ _ k (.unlinked p) := goes_setTask (τ := σ.unhook i p) rfl
    exact h.goes hgo (fun j => hgo.target_of_inst rfl)
      (fun q hq q' hq' => h.ids q (herase p q hq) q' (herase p q' hq'))
      (fun j i _ hj q hq => h.apart j i hj q (herase p q hq)) nofun
  | freed htask =>
    exact h.goes (goes_setTask rfl) (fun j => (goes_setTask rfl).target_of_inst rfl) h.ids
      (fun j i _ => h.apart j i) nofun
  | idle => exact h

/-! ### A configured instance stays -/

/-- An instance with the id `i` is in the list, or a request is to hook one into it. -/
def Present (σ : NatSys) (i : BitVec 32) : Prop :=
  (∃ p ∈ σ.nat, (σ.inst p).id = i) ∨ ∃ k, σ.target k = some i

/-- The requests other than `k` keep an instance present. -/
theorem Present.goes (h : σ.Present i) (hgo : Goes σ τ k t)
    (hother : ∀ j, j ≠ k → τ.target j = σ.target j)
    (hmem : ∀ p ∈ σ.nat, (σ.inst p).id = i → τ.Present i) (hmine : σ.target k = some i → τ.Present i) :
    τ.Present i := by
  rcases h with ⟨p, hp, hid⟩ | ⟨j, hj⟩
  · exact hmem p hp hid
  · rcases eq_or_ne j k with rfl | hne
    · exact hmine hj
    · exact .inr ⟨j, (hother j hne).trans hj⟩

/-- **Presence** is kept by every section but that of a deletion of the id. -/
theorem Present.next (h : σ.Present i) (ho : σ.Owned) (hp : σ.Promised (.next k a))
    (hdel : ¬ σ.Deletes i (.next k a)) : (σ.next k a).Present i := by
  have hsec := next_cases σ k a
  generalize σ.next k a = τ at hsec ⊢
  cases hsec with
  | @found ser p htask hmem hid =>
    have hgo : Goes σ _ k (.unhooked ser p) := goes_setTask (τ := σ.unhook ser.id p) rfl
    refine h.goes hgo (fun j => hgo.target_of_inst rfl) (fun q hq hi => ?_) fun hk => ?_
    · rcases eq_or_ne q p with rfl | hne
      · exact .inr ⟨k, hgo.target_self.trans (congrArg some (hid.symm.trans hi))⟩
      · exact .inl ⟨q, (List.mem_erase_of_ne hne).2 hq, hi⟩
    · rw [target_of_task htask] at hk
      cases hk
  | @created ser p htask hnone hptr =>
    obtain ⟨-, hfresh⟩ := hp p hptr
    have hgo : Goes σ _ k (.unhooked ser p) := goes_setTask
      (τ := { σ with inst := Function.update σ.inst p {}, used := insert p σ.used }) rfl
    refine h.goes hgo (fun j hj => hgo.target_of_update (p := p) rfl
      (fun hq => hfresh (ho.held j p hq).1) hj) (fun q hq hi => .inl ⟨q, hq, ?_⟩) fun hk => ?_
    · have hne : q ≠ p := by
        rintro rfl
        exact hfresh (ho.hooked q hq)
      change (Function.update σ.inst p {} q).id = i
      rwa [Function.update_of_ne hne]
    · rw [target_of_task htask] at hk
      cases hk
  | failed htask _ | missed htask _ | freed htask =>
    refine h.goes (goes_setTask rfl) (fun j => (goes_setTask rfl).target_of_inst rfl)
      (fun q hq hi => .inl ⟨q, hq, hi⟩) fun hk => ?_
    rw [target_of_task htask] at hk
    cases hk
  | @filled ser p htask =>
    have hk := held_of_task htask
    have hgo : Goes σ (σ.cfgFill k ser p) k (.configured p) := goes_setTask rfl
    refine h.goes hgo (fun j hj => hgo.target_of_update (p := p) rfl (ho.not_held_of_ne hk hj) hj)
      (fun q hq hi => .inl ⟨q, hq, ?_⟩) fun hi => .inr ⟨k, ?_⟩
    · have hne : q ≠ p := by
        rintro rfl
        exact (ho.held k q hk).2 hq
      change (Function.update σ.inst p ser q).id = i
      rwa [Function.update_of_ne hne]
    · rw [target_of_task htask] at hi
      rw [hgo.target_self]
      change some (Function.update σ.inst p ser p).id = some i
      rwa [Function.update_self]
  | @hooked p htask =>
    refine h.goes (goes_setTask rfl) (fun j => (goes_setTask rfl).target_of_inst rfl)
      (fun q hq hi => .inl ⟨q, List.mem_cons_of_mem p hq, hi⟩) fun hk => ?_
    rw [target_of_task htask] at hk
    exact .inl ⟨p, List.mem_cons_self, Option.some.inj hk⟩
  | @removed i' p htask hmem hid =>
    have hgo : Goes σ _ k (.unlinked p) := goes_setTask (τ := σ.unhook i' p) rfl
    refine h.goes hgo (fun j => hgo.target_of_inst rfl)
      (fun q hq hi => .inl ⟨q, (List.mem_erase_of_ne ?_).2 hq, hi⟩) fun hk => ?_
    · rintro rfl
      exact hdel (by rw [Deletes, htask, ← hid, hi])
    · rw [target_of_task htask] at hk
      cases hk
  | idle => exact h

/-! ### Runs -/

/-- The arrival of a request changes no instance. -/
theorem held_arrive (hk : σ.task k = none) (ht : t.held = none) (j : ℕ) :
    (σ.setTask k t).held j = σ.held j := by
  rcases eq_or_ne j k with rfl | hne
  · rw [(goes_setTask (σ := σ) rfl).held_self, ht, NatSys.held, hk]
    rfl
  · exact (goes_setTask rfl).held_of_ne hne

theorem target_arrive (hk : σ.task k = none) (ht : t.target σ.inst = none) (j : ℕ) :
    (σ.setTask k t).target j = σ.target j := by
  rcases eq_or_ne j k with rfl | hne
  · rw [(goes_setTask (σ := σ) rfl).target_self]
    rw [target, hk]
    exact ht
  · exact (goes_setTask rfl).target_of_inst rfl hne

theorem Owned.arrive (h : σ.Owned) (hk : σ.task k = none) (ht : t.held = none) :
    (σ.setTask k t).Owned := by
  have heq := held_arrive hk ht
  exact ⟨h.nodup, h.hooked, fun j p hj => h.held j p (heq j ▸ hj),
    fun j j' p hj hj' => h.sole j j' p (heq j ▸ hj) (heq j' ▸ hj')⟩

theorem Unique.arrive (h : σ.Unique) (hk : σ.task k = none) (ht : t.target σ.inst = none) :
    (σ.setTask k t).Unique := by
  have heq := target_arrive hk ht
  exact ⟨h.ids, fun j i hj => h.apart j i (heq j ▸ hj),
    fun j j' i hj hj' => h.one j j' i (heq j ▸ hj) (heq j' ▸ hj')⟩

theorem Present.arrive (h : σ.Present i) (hk : σ.task k = none) (ht : t.target σ.inst = none) :
    (σ.setTask k t).Present i :=
  h.imp_right fun ⟨j, hj⟩ => ⟨j, (target_arrive hk ht j).trans hj⟩

theorem Owned.step {op : NatOp} {o : Unit} (h : σ.Owned) (hp : σ.Promised op)
    (hst : σ.step op = some (o, τ)) : τ.Owned := by
  cases op with
  | cfg k ser => exact (Prod.mk.inj (Option.some.inj hst)).2 ▸ h.arrive hp rfl
  | del k i => exact (Prod.mk.inj (Option.some.inj hst)).2 ▸ h.arrive hp rfl
  | next k a => exact (Prod.mk.inj (Option.some.inj hst)).2 ▸ h.next hp

theorem Unique.step {op : NatOp} {o : Unit} (h : σ.Unique) (ho : σ.Owned) (hp : σ.Promised op)
    (halone : σ.Alone op) (hst : σ.step op = some (o, τ)) : τ.Unique := by
  cases op with
  | cfg k ser => exact (Prod.mk.inj (Option.some.inj hst)).2 ▸ h.arrive hp rfl
  | del k i => exact (Prod.mk.inj (Option.some.inj hst)).2 ▸ h.arrive hp rfl
  | next k a => exact (Prod.mk.inj (Option.some.inj hst)).2 ▸ h.next ho hp halone

theorem Present.step {op : NatOp} {o : Unit} (h : σ.Present i) (ho : σ.Owned) (hp : σ.Promised op)
    (hdel : ¬ σ.Deletes i op) (hst : σ.step op = some (o, τ)) : τ.Present i := by
  cases op with
  | cfg k ser => exact (Prod.mk.inj (Option.some.inj hst)).2 ▸ h.arrive hp rfl
  | del k i => exact (Prod.mk.inj (Option.some.inj hst)).2 ▸ h.arrive hp rfl
  | next k a => exact (Prod.mk.inj (Option.some.inj hst)).2 ▸ h.next ho hp hdel

theorem Owned.run {l : List (NatOp × Unit)} (h : σ.Owned)
    (hrun : Runs.Run NatSys.step (fun σ op _ => σ.Promised op) σ l τ) : τ.Owned :=
  hrun.invariant (fun _ _ _ _ ho hok hst => ho.step hok hst) h

theorem owned_init (rs : Ruleset) : (init rs).Owned :=
  ⟨List.nodup_nil, nofun, nofun, nofun⟩

theorem unique_init (rs : Ruleset) : (init rs).Unique := ⟨nofun, nofun, nofun⟩

/-- In a state without requests under way, a deletion finds an instance that is present. -/
theorem Present.delFind (h : σ.Present i) (hq : σ.Quiet) (k : ℕ) (a : NatAlloc) :
    ∃ p ∈ σ.nat, (σ.inst p).id = i ∧
      ((σ.setTask k (.del i)).next k a).task k = some (.unlinked p) := by
  obtain ⟨p₀, hp₀, hid₀⟩ : ∃ p ∈ σ.nat, (σ.inst p).id = i := by
    refine h.resolve_right ?_
    rintro ⟨j, hj⟩
    obtain ⟨t, ht, hj⟩ := Option.bind_eq_some_iff.1 hj
    obtain ⟨err, rfl⟩ := hq j t ht
    cases hj
  cases hfind : lookupNat σ.inst σ.nat i with
  | none => exact absurd hid₀ (lookupNat_none.1 hfind p₀ hp₀)
  | some p =>
    refine ⟨p, (lookupNat_some hfind).1, (lookupNat_some hfind).2, ?_⟩
    have htask : (σ.setTask k (.del i)).task k = some (.del i) := Function.update_self ..
    have hfind' : lookupNat (σ.setTask k (.del i)).inst (σ.setTask k (.del i)).nat i = some p := hfind
    rw [NatSys.next, htask]
    dsimp only
    rw [NatSys.delFind, hfind']
    exact Function.update_self ..

/-- **NAT instances stay unique** in a run in which no configuration starts while another request
configures the same id. Whatever the order of the sections is, an instance that is freed is not in the
list and belongs to no other request; and after a configuration has hooked an instance into the list,
a deletion of its id that starts with no request under way finds it, if the id has not been deleted
since. -/
theorem natCfg_unique {rs : Ruleset} {l : List (NatOp × Unit)}
    (hrun : Runs.Run NatSys.step (fun σ op _ => σ.Promised op ∧ σ.Alone op) (init rs) l σ) :
    (σ.nat.map fun p => (σ.inst p).id).Nodup ∧
      (∀ k p, σ.task k = some (.unlinked p) →
        p ∉ σ.nat ∧ ∀ j, j ≠ k → σ.held j ≠ some p) ∧
      ∀ k p a, σ.task k = some (.configured p) → ∀ l' τ,
        Runs.Run NatSys.step (fun τ op _ => τ.Promised op ∧ ¬ τ.Deletes (σ.inst p).id op)
          (σ.next k a) l' τ → τ.Quiet → ∀ j b, ∃ q ∈ τ.nat, (τ.inst q).id = (σ.inst p).id ∧
            ((τ.setTask j (.del (σ.inst p).id)).next j b).task j = some (.unlinked q) := by
  have hinv : σ.Owned ∧ σ.Unique := hrun.invariant (I := fun σ => σ.Owned ∧ σ.Unique)
    (fun _ _ _ _ hi hok hst => ⟨hi.1.step hok.1 hst, hi.2.step hi.1 hok.1 hok.2 hst⟩)
    ⟨owned_init rs, unique_init rs⟩
  obtain ⟨ho, hu⟩ := hinv
  refine ⟨ho.nodup.map_on fun p hp q hq => hu.ids p hp q hq, fun k p hk => ?_, ?_⟩
  · have hheld := held_of_task hk
    exact ⟨(ho.held k p hheld).2, fun j => ho.not_held_of_ne hheld⟩
  · intro k p a hk l' τ hrun' hquiet j b
    have hnext : σ.next k a = σ.cfgHook k p := by
      rw [NatSys.next, hk]
    have hpres : (σ.next k a).Present (σ.inst p).id := by
      rw [hnext]
      exact .inl ⟨p, List.mem_cons_self, rfl⟩
    have ho' : (σ.next k a).Owned := by
      rw [hnext]
      have hstep := ho.next (k := k) (a := ⟨none, true⟩) nofun
      rwa [NatSys.next, hk] at hstep
    have hτ : τ.Owned ∧ τ.Present (σ.inst p).id :=
      hrun'.invariant (I := fun τ => τ.Owned ∧ τ.Present (σ.inst p).id)
        (fun _ _ _ _ hi hok hst => ⟨hi.1.step hok.1 hst, hi.2.step hi.1 hok.1 hok.2 hst⟩)
        ⟨ho', hpres⟩
    exact hτ.2.delFind hquiet j b

/-! ### Two configurations of one id -/

/-- Two requests for the instance 1, each of which looks for it before the other one hooks it into
the list. -/
def twoCfgs : List NatOp :=
  [.cfg 0 { id := 1 }, .cfg 1 { id := 1 }, .next 0 ⟨some 8, true⟩, .next 1 ⟨some 16, true⟩,
    .next 0 ⟨none, true⟩, .next 1 ⟨none, true⟩, .next 0 ⟨none, true⟩, .next 1 ⟨none, true⟩]

/-- The states of one request for the instance 1, after its arrival and after each section. -/
def oneCfg : ℕ → NatSys
  | 0 => (init (.init true)).setTask 0 (.cfg { id := 1 })
  | 1 => (oneCfg 0).next 0 ⟨some 8, true⟩
  | n + 2 => (oneCfg (n + 1)).next 0 ⟨none, true⟩

theorem oneCfg_run : ∃ l, Runs.Run NatSys.step (fun σ op _ => σ.Promised op ∧ σ.Alone op)
    (init (.init true)) l (oneCfg 3) := by
  have htarget : ∀ j, (oneCfg 0).target j = none := target_arrive rfl rfl
  have h0 : Runs.Run NatSys.step (fun σ op _ => σ.Promised op ∧ σ.Alone op) (init (.init true))
      [(.cfg 0 { id := 1 }, ())] (oneCfg 0) := .single ⟨(rfl : _ = none), trivial⟩ rfl
  have hok0 : (oneCfg 0).Promised (.next 0 ⟨some 8, true⟩) ∧
      (oneCfg 0).Alone (.next 0 ⟨some 8, true⟩) := by
    refine ⟨by decide, fun ser _ j => ?_⟩
    rw [htarget]
    exact nofun
  have hok1 : (oneCfg 1).Promised (.next 0 ⟨none, true⟩) ∧
      (oneCfg 1).Alone (.next 0 ⟨none, true⟩) := by
    have htask : (oneCfg 1).task 0 = some (.unhooked { id := 1 } 8) := rfl
    exact ⟨nofun, fun ser hser => by cases htask.symm.trans hser⟩
  have hok2 : (oneCfg 2).Promised (.next 0 ⟨none, true⟩) ∧
      (oneCfg 2).Alone (.next 0 ⟨none, true⟩) := by
    have htask : (oneCfg 2).task 0 = some (.configured 8) := rfl
    exact ⟨nofun, fun ser hser => by cases htask.symm.trans hser⟩
  exact ⟨_, .snoc (.snoc (.snoc h0 hok0 rfl) hok1 rfl) hok2 rfl⟩

/-- After one configuration there is one instance. -/
theorem natCfg_unique_oneCfg :
    (oneCfg 3).nat = [8] ∧ ((oneCfg 3).nat.map fun p => ((oneCfg 3).inst p).id).Nodup :=
  have ⟨_, hrun⟩ := oneCfg_run
  ⟨rfl, (natCfg_unique hrun).1⟩

/-- **Duplicate instances.** Both requests find no instance 1, and both hook one into the list. -/
theorem not_unique_of_twoCfgs :
    ∃ l σ, Runs.Run NatSys.step (fun σ op _ => σ.Promised op) (init (.init true)) l σ ∧
      ¬ (σ.nat.map fun p => (σ.inst p).id).Nodup := by
  have hexec : (Runs.exec NatSys.step (fun σ op _ => σ.Promised op) (init (.init true))
      twoCfgs).any (fun σ => decide ¬ (σ.nat.map fun p => (σ.inst p).id).Nodup) = true := by
    decide +kernel
  obtain ⟨σ, hσ, hdup⟩ := (Option.any_eq_true _ _).1 hexec
  obtain ⟨l, hl⟩ := Runs.Run.of_exec hσ
  exact ⟨l, σ, hl, of_decide_eq_true hdup⟩

end NatSys

end Ipfw
