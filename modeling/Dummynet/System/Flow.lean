import Dummynet.Heap
import Dummynet.Queue

/-!
# Flow ids and hash tables

The flow identifiers that dummynet masks, hashes and compares, and the hash tables of
`dn_heap.c` that hold flowsets, schedulers, queues and scheduler instances.

A table is the list of its objects, each with the bucket in which it is linked; the objects of one
bucket are in the order in which a scan visits them.

## Main definitions

* `FlowId`: `struct ipfw_flow_id`, with `flowIdMask`, `flowIdOr`, `nonzeroMask`, `flowIdHash` and
  `flowIdCmp`.
* `DnHt`: `struct dn_ht`, with `dnHtInit`, `DnHt.find`, `DnHt.insert` and `DnHt.remove`.
* `Objs`: a pointer that is null, a single object or a hash table.
-/

namespace Dummynet

/-! ### Flow ids -/

/-- `struct ipfw_flow_id`. -/
structure FlowId where
  dstIp : BitVec 32 := 0
  srcIp : BitVec 32 := 0
  dstPort : BitVec 16 := 0
  srcPort : BitVec 16 := 0
  fib : BitVec 8 := 0
  proto : BitVec 8 := 0
  flags : BitVec 8 := 0
  addrType : BitVec 8 := 0
  dstIp6 : Fin 4 → BitVec 32 := fun _ => 0
  srcIp6 : Fin 4 → BitVec 32 := fun _ => 0
  flowId6 : BitVec 32 := 0
  extra : BitVec 32 := 0
deriving DecidableEq

/-- `IS_IP6_FLOW_ID`. -/
def FlowId.isIp6 (id : FlowId) : Prop := id.addrType = 6

instance (id : FlowId) : Decidable id.isIp6 := inferInstanceAs (Decidable (_ = _))

/-- `flow_id_mask`. -/
def flowIdMask (mask id : FlowId) : FlowId :=
  let t := { id with
    dstPort := id.dstPort &&& mask.dstPort
    srcPort := id.srcPort &&& mask.srcPort
    proto := id.proto &&& mask.proto
    extra := id.extra &&& mask.extra }
  if id.isIp6 then
    { t with
      dstIp6 := fun i => id.dstIp6 i &&& mask.dstIp6 i
      srcIp6 := fun i => id.srcIp6 i &&& mask.srcIp6 i
      flowId6 := id.flowId6 &&& mask.flowId6 }
  else
    { t with dstIp := id.dstIp &&& mask.dstIp, srcIp := id.srcIp &&& mask.srcIp }

/-- `flow_id_or`, with the address family of the second argument. -/
def flowIdOr (src dst : FlowId) : FlowId :=
  let t := { dst with
    dstPort := dst.dstPort ||| src.dstPort
    srcPort := dst.srcPort ||| src.srcPort
    proto := dst.proto ||| src.proto
    extra := dst.extra ||| src.extra }
  if dst.isIp6 then
    { t with
      dstIp6 := fun i => dst.dstIp6 i ||| src.dstIp6 i
      srcIp6 := fun i => dst.srcIp6 i ||| src.srcIp6 i
      flowId6 := dst.flowId6 ||| src.flowId6 }
  else
    { t with dstIp := dst.dstIp ||| src.dstIp, srcIp := dst.srcIp ||| src.srcIp }

/-- `nonzero_mask`. -/
def nonzeroMask (m : FlowId) : Prop :=
  m.dstPort ≠ 0 ∨ m.srcPort ≠ 0 ∨ m.proto ≠ 0 ∨ m.extra ≠ 0 ∨
    if m.isIp6 then (∃ i, m.dstIp6 i ≠ 0) ∨ (∃ i, m.srcIp6 i ≠ 0) ∨ m.flowId6 ≠ 0
    else m.dstIp ≠ 0 ∨ m.srcIp ≠ 0

instance (m : FlowId) : Decidable (nonzeroMask m) := by
  unfold nonzeroMask
  infer_instance

/-- `flow_id_hash`. -/
def flowIdHash (id : FlowId) : BitVec 32 :=
  let dstPort := id.dstPort.setWidth 32
  let srcPort := id.srcPort.setWidth 32
  let proto := id.proto.setWidth 32
  if id.isIp6 then
    let d := id.dstIp6
    let s := id.srcIp6
    d 0 ^^^ d 1 ^^^ d 2 ^^^ d 3 ^^^
      (d 0 >>> 15) ^^^ (d 1 >>> 15) ^^^ (d 2 >>> 15) ^^^ (d 3 >>> 15) ^^^
      (s 0 <<< 1) ^^^ (s 1 <<< 1) ^^^ (s 2 <<< 1) ^^^ (s 3 <<< 1) ^^^
      (s 0 <<< 16) ^^^ (s 1 <<< 16) ^^^ (s 2 <<< 16) ^^^ (s 3 <<< 16) ^^^
      (dstPort <<< 1) ^^^ srcPort ^^^ id.extra ^^^ proto ^^^ id.flowId6
  else
    id.dstIp ^^^ (id.dstIp >>> 15) ^^^ (id.srcIp <<< 1) ^^^ (id.srcIp >>> 16) ^^^ id.extra ^^^
      (dstPort <<< 1) ^^^ srcPort ^^^ proto

/-- `flow_id_cmp(id1, id2) == 0`. The family of the second id is only looked at when the first one
is not IPv6. -/
def flowIdCmp (id1 id2 : FlowId) : Bool :=
  if ¬ id1.isIp6 then
    if id2.isIp6 then false
    else decide (id1.dstIp = id2.dstIp ∧ id1.srcIp = id2.srcIp ∧ id1.dstPort = id2.dstPort ∧
      id1.srcPort = id2.srcPort ∧ id1.proto = id2.proto ∧ id1.extra = id2.extra)
  else decide (id1.dstIp6 = id2.dstIp6 ∧ id1.srcIp6 = id2.srcIp6 ∧ id1.dstPort = id2.dstPort ∧
    id1.srcPort = id2.srcPort ∧ id1.proto = id2.proto ∧ id1.extra = id2.extra ∧
    id1.flowId6 = id2.flowId6)

/-! ### Hash tables -/

variable {α : Type}

/-- `struct dn_ht`. The field `buckets` is the number of buckets minus one. -/
structure DnHt (α : Type) where
  buckets : ℕ
  objs : List (Fin (buckets + 1) × α) := []

/-- The number of buckets, minus one, for a requested size: the power of two below or above. -/
def htBuckets (n : ℕ) : ℕ :=
  let bMax := heapRoundUp n
  let bMin := bMax >>> 1
  if bMin * 4000 / 3000 < n then bMax else bMin

/-- `dn_ht_init` without a table to reuse. -/
def dnHtInit (mallocOk : Bool) (buckets : ℤ) : Option (DnHt α) :=
  if buckets < 1 ∨ 65536 < buckets then none
  else if mallocOk then some { buckets := htBuckets buckets.toNat } else none

namespace DnHt

/-- The bucket for a hash value. -/
def bucket (ht : DnHt α) (hash : BitVec 32) : Fin (ht.buckets + 1) :=
  if ht.buckets = 1 then 0
  else ⟨(hash &&& BitVec.ofNat 32 ht.buckets).toNat, by
    have hand := @Nat.and_le_right hash.toNat (BitVec.ofNat 32 ht.buckets).toNat
    have hmod := Nat.mod_le ht.buckets (2 ^ 32)
    rw [BitVec.toNat_ofNat] at hand
    rw [BitVec.toNat_and, BitVec.toNat_ofNat]
    omega⟩

/-- The objects of one bucket, from head to tail. -/
def chain (ht : DnHt α) (i : Fin (ht.buckets + 1)) : List α :=
  (ht.objs.filter fun e => e.1 = i).map Prod.snd

/-- All objects, in the order of a scan of the table. -/
def ordered (ht : DnHt α) : List α := (List.finRange (ht.buckets + 1)).flatMap ht.chain

/-- `dn_ht_find` without flags. -/
def find (ht : DnHt α) (hash : BitVec 32) (isMatch : α → Bool) : Option α :=
  (ht.chain (ht.bucket hash)).find? isMatch

/-- `dn_ht_find` for an object that was not found: the new object is linked as the head. -/
def insert (ht : DnHt α) (hash : BitVec 32) (o : α) : DnHt α :=
  { ht with objs := (ht.bucket hash, o) :: ht.objs }

/-- An object leaves the table. -/
def remove [DecidableEq α] (ht : DnHt α) (o : α) : DnHt α :=
  { ht with objs := ht.objs.filter fun e => e.2 ≠ o }

/-- The bucket that `dn_ht_scan_bucket` scans for an index that may be out of range. -/
def scanBucket (ht : DnHt α) (bucket : BitVec 32) : Fin (ht.buckets + 1) :=
  if h : (ht.buckets : ℤ) < bucket.toInt ∨ bucket.toInt < 0 then 0
  else ⟨bucket.toInt.toNat, by omega⟩

/-- `dn_ht_free` with `DNHT_REMOVE`: all objects are unlinked. -/
def clear (ht : DnHt α) : DnHt α := { ht with objs := [] }

theorem mem_chain {ht : DnHt α} {i : Fin (ht.buckets + 1)} {a : α} :
    a ∈ ht.chain i ↔ (i, a) ∈ ht.objs := by
  simp [chain]

theorem mem_ordered {ht : DnHt α} {a : α} : a ∈ ht.ordered ↔ ∃ i, (i, a) ∈ ht.objs := by
  simp [ordered, mem_chain]

theorem mem_ordered' {ht : DnHt α} {a : α} : a ∈ ht.ordered ↔ a ∈ ht.objs.map Prod.snd := by
  simp [mem_ordered]

/-- A scan meets every object once. -/
theorem nodup_ordered {ht : DnHt α} (h : (ht.objs.map Prod.snd).Nodup) : ht.ordered.Nodup := by
  have hinj : ∀ e ∈ ht.objs, ∀ e' ∈ ht.objs, e.2 = e'.2 → e = e' := fun e he e' he' heq =>
    List.inj_on_of_nodup_map h he he' heq
  refine List.nodup_flatMap.2 ⟨fun i _ => ?_, ?_⟩
  · exact h.sublist (List.filter_sublist.map Prod.snd)
  · refine (List.nodup_finRange _).imp fun {i j} hij => ?_
    intro a hi hj
    have heq := hinj _ (mem_chain.1 hi) _ (mem_chain.1 hj) rfl
    exact hij (congrArg Prod.fst heq)

theorem find_eq_some {ht : DnHt α} {hash : BitVec 32} {isMatch : α → Bool} {a : α}
    (h : ht.find hash isMatch = some a) : a ∈ ht.ordered ∧ isMatch a = true :=
  ⟨mem_ordered.2 ⟨_, mem_chain.1 (List.mem_of_find?_eq_some h)⟩, List.find?_some h⟩

@[simp] theorem mem_insert {ht : DnHt α} {hash : BitVec 32} {a b : α} :
    b ∈ (ht.insert hash a).ordered ↔ b = a ∨ b ∈ ht.ordered := by
  simp [mem_ordered', insert]

@[simp] theorem mem_remove [DecidableEq α] {ht : DnHt α} {a b : α} :
    b ∈ (ht.remove a).ordered ↔ b ∈ ht.ordered ∧ b ≠ a := by
  simp [mem_ordered', remove]

theorem nodup_insert {ht : DnHt α} {hash : BitVec 32} {a : α}
    (h : (ht.objs.map Prod.snd).Nodup) (ha : a ∉ ht.ordered) :
    ((ht.insert hash a).objs.map Prod.snd).Nodup := by
  rw [mem_ordered'] at ha
  exact List.nodup_cons.2 ⟨ha, h⟩

theorem nodup_remove [DecidableEq α] {ht : DnHt α} {a : α} (h : (ht.objs.map Prod.snd).Nodup) :
    ((ht.remove a).objs.map Prod.snd).Nodup :=
  h.sublist (List.filter_sublist.map Prod.snd)

end DnHt

/-- `dn_ht_find` in a table that may not exist. -/
def dnHtFind (ht : Option (DnHt α)) (hash : BitVec 32) (isMatch : α → Bool) : Option α :=
  ht.bind fun ht => ht.find hash isMatch

/-- `dn_ht_entries`. -/
def dnHtEntries (ht : Option (DnHt α)) : ℕ := (ht.map fun ht => ht.objs.length).getD 0

/-- A pointer such as `qht` or `siht`: a flag elsewhere tells whether it is a single object or a
hash table. -/
inductive Objs (α : Type)
  | null
  | one (o : α)
  | table (ht : DnHt α)

namespace Objs

/-- The objects, in the order of a scan. -/
def list : Objs α → List α
  | null => []
  | one o => [o]
  | table ht => ht.ordered

/-- An object goes away. The table stays. -/
def remove [DecidableEq α] (p : Objs α) (o : α) : Objs α :=
  match p with
  | null => null
  | one o' => if o' = o then null else one o'
  | table ht => table (ht.remove o)

/-- No object is linked twice. -/
def Nodup : Objs α → Prop
  | table ht => (ht.objs.map Prod.snd).Nodup
  | _ => True

@[simp] theorem list_null : (null : Objs α).list = [] := rfl

theorem Nodup.list {p : Objs α} (h : p.Nodup) : p.list.Nodup := by
  cases p with
  | null => exact List.nodup_nil
  | one o => exact List.nodup_singleton o
  | table ht => exact DnHt.nodup_ordered h

@[simp] theorem mem_remove [DecidableEq α] {p : Objs α} {a b : α} :
    b ∈ (p.remove a).list ↔ b ∈ p.list ∧ b ≠ a := by
  cases p with
  | null => simp [remove]
  | one o =>
    by_cases ho : o = a
    · simp [remove, ho, list]
    · simp only [remove, if_neg ho, list, List.mem_singleton]
      exact ⟨fun h => ⟨h, h ▸ ho⟩, fun h => h.1⟩
  | table ht => exact DnHt.mem_remove

theorem Nodup.remove [DecidableEq α] {p : Objs α} (h : p.Nodup) (a : α) : (p.remove a).Nodup := by
  cases p with
  | null => trivial
  | one o =>
    rw [Objs.remove]
    split_ifs <;> trivial
  | table ht => exact DnHt.nodup_remove h

end Objs

end Dummynet
