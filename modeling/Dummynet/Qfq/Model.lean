import Dummynet.Sched
import Dummynet.Bitmap

/-!
# The QFQ scheduler

The scheduler of `dn_sched_qfq.c`. The queues, here also called classes, are divided into groups
by the time that their largest packet takes. A class with packets is in one of the 32 slots of its
group, by its start time rounded down to the width of the slots; the start time of a group is that
of its first slot, and four bitmaps say which groups are eligible or not and ready or blocked.
Only groups and slots are compared when a packet is taken: the first group that is eligible and
ready is served, and in it a class of the first slot.

Timestamps are 64-bit words, compared with `qfq_gt`, and bitmaps are 64-bit words. The list of
classes in a slot is a list, and the group of a class its index. A function that reads outside an
array, follows a null pointer or shifts by too much has its result in `Option`.

## Main definitions

* `QfqState`, `QfqClass`, `QfqGroup`, `QfqSched`, `Qfq`: the instance and its queues.
* `qfqEnqueue`, `qfqDequeue`, `qfqNewQueue`, `qfqFreeQueue`: the callbacks.
* `qfqDesc`: the scheduler descriptor.
-/

namespace Dummynet

/-- `enum qfq_state`: eligible or ineligible, ready or blocked. -/
inductive QfqState
  | ER
  | IR
  | EB
  | IB
deriving DecidableEq

/-- The state with the number `(blocked ? EB : 0) | ineligible`. -/
def QfqState.of (ineligible blocked : Bool) : QfqState :=
  if blocked then if ineligible then IB else EB else if ineligible then IR else ER

/-- `struct qfq_class` behind the common part. -/
structure QfqClass where
  S : BitVec 64 := 0
  F : BitVec 64 := 0
  grp : Option ℕ := none
  invW : BitVec 32 := 0
  lmax : BitVec 32 := 0

/-- `struct qfq_group`. -/
structure QfqGroup where
  S : BitVec 64 := 0
  F : BitVec 64 := 0
  slotShift : ℕ := 0
  index : ℕ := 0
  front : ℕ := 0
  fullSlots : BitVec 64 := 0
  slots : ℕ → List QPtr := fun _ => []

/-- `struct qfq_sched`. -/
structure QfqSched where
  V : BitVec 64 := 0
  wsum : BitVec 32 := 0
  bitmaps : QfqState → BitVec 64 := fun _ => 0
  groups : ℕ → QfqGroup

/-- A QFQ instance with its queues. -/
abbrev Qfq := Inst QfqSched QfqClass

/-- `QFQ_MAX_SLOTS`. -/
def qfqMaxSlots : ℕ := 32

/-- `QFQ_MAX_INDEX`. -/
def qfqMaxIndex : ℕ := 19

/-- `QFQ_MAX_WEIGHT`. -/
def qfqMaxWeight : ℕ := 2 ^ 16

/-- `QFQ_MAX_WSUM`. -/
def qfqMaxWsum : ℕ := 2 * qfqMaxWeight

/-- `FRAC_BITS`, which is not the one of WF2Q+. -/
def qfqFracBits : ℕ := 30

/-- `ONE_FP`. -/
def qfqOneFP : ℕ := 2 ^ qfqFracBits

/-- `IWSUM`. -/
def iwsum : ℕ := qfqOneFP / qfqMaxWsum

/-- `QFQ_MTU_SHIFT`. -/
def qfqMtuShift : ℕ := 11

/-- `QFQ_MIN_SLOT_SHIFT`. -/
def qfqMinSlotShift : ℕ := qfqFracBits + qfqMtuShift - qfqMaxIndex

/-! ### Support functions -/

/-- `qfq_gt`. -/
def qfqGt (a b : BitVec 64) : Bool := decide (0 < (a - b).toInt)

/-- `qfq_round_down`. -/
def qfqRoundDown (ts : BitVec 64) (shift : ℕ) : BitVec 64 := ts &&& ~~~ Bits.below 64 shift

/-- `qfq_ffs`, the index of the group: `ffs` takes an `int`, and there is no group before the
first one. -/
def qfqFfs (bitmap : BitVec 64) : Option ℕ :=
  if bitmap.setWidth 32 = 0 then none else some (Bits.first (bitmap.setWidth 32))

/-- `__fls`, where `fls` takes an `int`; the result for 0 is -1. -/
def qfqFls (word : BitVec 64) : Option ℕ :=
  if word.setWidth 32 = 0 then none else some (Bits.last (word.setWidth 32))

/-- `qfq_calc_index`. -/
def qfqCalcIndex (invW maxlen : BitVec 32) : ℕ :=
  let slotSize : BitVec 64 := maxlen.setWidth 64 * invW.setWidth 64
  let sizeMap := slotSize >>> qfqMinSlotShift
  if sizeMap = 0 then 0
  else
    let index := Bits.last (sizeMap.setWidth 32) + 1
    if slotSize - 1 <<< (index + qfqMinSlotShift - 1) = 0 then index - 1 else index

/-- `mask_from`. -/
def maskFrom (bitmap : BitVec 64) (from' : ℕ) : BitVec 64 := bitmap &&& ~~~ Bits.below 64 from'

namespace Qfq

/-- Writes the virtual time. -/
def setV (s : Qfq) (V : BitVec 64) : Qfq := { s with priv := { s.priv with V := V } }

/-- Writes one bitmap. -/
def setBitmap (s : Qfq) (st : QfqState) (b : BitVec 64) : Qfq :=
  { s with priv := { s.priv with bitmaps := Function.update s.priv.bitmaps st b } }

/-- Writes a group. -/
def setGroup (s : Qfq) (g : ℕ) (grp : QfqGroup) : Qfq :=
  { s with priv := { s.priv with groups := Function.update s.priv.groups g grp } }

/-- Writes the timestamps of a class. -/
def setTimes (s : Qfq) (q : QPtr) (S F : BitVec 64) : Qfq :=
  { s with ext := Function.update s.ext q { s.ext q with S := S, F := F } }

/-- `__set_bit` on a bitmap of groups. -/
def markGroup (s : Qfq) (g : ℕ) (st : QfqState) : Option Qfq :=
  (setBit g (s.priv.bitmaps st)).map (setBitmap s st)

/-- `__clear_bit` on a bitmap of groups. -/
def unmarkGroup (s : Qfq) (g : ℕ) (st : QfqState) : Option Qfq :=
  (clearBit g (s.priv.bitmaps st)).map (setBitmap s st)

/-- Writes the start time of a group and, two slots later, its finish time. -/
def setGroupTimes (s : Qfq) (g : ℕ) (S : BitVec 64) : Qfq :=
  let grp := s.priv.groups g
  setGroup s g { grp with S := S, F := S + 2 <<< grp.slotShift }

end Qfq

open Qfq

/-! ### Groups -/

/-- `qfq_calc_state`. -/
def qfqCalcState (s : Qfq) (grp : QfqGroup) : Option QfqState :=
  let ineligible := qfqGt grp.S s.priv.V
  let mask := maskFrom (s.priv.bitmaps .ER) grp.index
  if mask = 0 then some (.of ineligible false)
  else (qfqFfs mask).map fun next => .of ineligible (qfqGt grp.F (s.priv.groups next).F)

/-- `qfq_move_groups`. -/
def qfqMoveGroups (s : Qfq) (mask : BitVec 64) (src dst : QfqState) : Qfq :=
  let s := setBitmap s dst (s.priv.bitmaps dst ||| s.priv.bitmaps src &&& mask)
  setBitmap s src (s.priv.bitmaps src &&& ~~~ mask)

/-- `qfq_unblock_groups`. -/
def qfqUnblockGroups (s : Qfq) (index : ℕ) (oldFinish : BitVec 64) : Option Qfq :=
  let mask := maskFrom (s.priv.bitmaps .ER) (index + 1)
  let stay := if mask = 0 then some false
    else (qfqFfs mask).map fun next => !qfqGt (s.priv.groups next).F oldFinish
  stay.map fun stay =>
    if stay then s
    else
      let mask := Bits.below 64 index
      qfqMoveGroups (qfqMoveGroups s mask .EB .ER) mask .IB .IR

/-- `qfq_make_eligible`. -/
def qfqMakeEligible (s : Qfq) (oldV : BitVec 64) : Option Qfq :=
  let vslot := s.priv.V >>> qfqMinSlotShift
  let oldVslot := oldV >>> qfqMinSlotShift
  if vslot ≠ oldVslot then
    (qfqFls (vslot ^^^ oldVslot)).map fun last =>
      let mask := Bits.below 64 (last + 1)
      qfqMoveGroups (qfqMoveGroups s mask .IR .ER) mask .IB .EB
  else some s

/-- `qfq_update_eligible`. -/
def qfqUpdateEligible (s : Qfq) (oldV : BitVec 64) : Option Qfq :=
  let ineligible := s.priv.bitmaps .IR ||| s.priv.bitmaps .IB
  if ineligible = 0 then some s
  else
    let raised := if s.priv.bitmaps .ER = 0 then
        (qfqFfs ineligible).map fun g =>
          let S := (s.priv.groups g).S
          if qfqGt S s.priv.V then setV s S else s
      else some s
    raised.bind fun s => qfqMakeEligible s oldV

/-! ### Slots -/

/-- The offset of a start time in the slots of a group, in `qfq_slot_insert`. -/
def slotOffset (grp : QfqGroup) (roundedS : BitVec 64) : BitVec 64 :=
  (roundedS - grp.S) >>> grp.slotShift

/-- `qfq_slot_insert`. -/
def qfqSlotInsert (s : Qfq) (g : ℕ) (q : QPtr) (roundedS : BitVec 64) : Option Qfq :=
  let grp := s.priv.groups g
  let slot := (slotOffset grp roundedS).toNat
  let i := (grp.front + slot) % qfqMaxSlots
  (setBit slot grp.fullSlots).map fun full => setGroup s g { grp with
    fullSlots := full
    slots := Function.update grp.slots i (q :: grp.slots i) }

/-- `qfq_front_slot_remove`. -/
def qfqFrontSlotRemove (s : Qfq) (g : ℕ) : Option Qfq :=
  let grp := s.priv.groups g
  match grp.slots grp.front with
  | [] => none
  | _ :: rest =>
    let full := if rest = [] then clearBit 0 grp.fullSlots else some grp.fullSlots
    full.map fun full => setGroup s g { grp with
      fullSlots := full
      slots := Function.update grp.slots grp.front rest }

/-- `qfq_slot_scan`: the first class of the first slot that is full, which becomes the front. -/
def qfqSlotScan (s : Qfq) (g : ℕ) : Option QPtr × Qfq :=
  let grp := s.priv.groups g
  if grp.fullSlots = 0 then (none, s)
  else
    let i := Bits.ffs (grp.fullSlots.setWidth 32) - 1
    let grp := { grp with
      front := (grp.front + i) % qfqMaxSlots
      fullSlots := grp.fullSlots >>> i }
    ((grp.slots grp.front).head?, setGroup s g grp)

/-- The number of slots by which a group moves back, in `qfq_slot_rotate`. -/
def rotateAmount (grp : QfqGroup) (roundedS : BitVec 64) : BitVec 32 :=
  ((grp.S - roundedS) >>> grp.slotShift).setWidth 32

/-- `qfq_slot_rotate`. -/
def qfqSlotRotate (s : Qfq) (g : ℕ) (roundedS : BitVec 64) : Option Qfq :=
  let grp := s.priv.groups g
  let i := (rotateAmount grp roundedS).toNat
  if i < 64 then
    some (setGroup s g { grp with
      fullSlots := grp.fullSlots <<< i
      front := (grp.front + 2 ^ 32 - i) % qfqMaxSlots })
  else none

/-! ### The callbacks -/

/-- `qfq_update_class`: the new timestamps of the class that was served, and whether its group has
to be updated. -/
def qfqUpdateClass (s : Qfq) (g : ℕ) (q : QPtr) : Option (Bool × Qfq) :=
  let F := (s.ext q).F
  match s.mq q with
  | [] => (qfqFrontSlotRemove (setTimes s q F F) g).map fun s => (true, s)
  | m :: _ =>
    let s := setTimes s q F (F + m.len64 * (s.ext q).invW.setWidth 64)
    let roundedS := qfqRoundDown F (s.priv.groups g).slotShift
    if roundedS = (s.priv.groups g).S then some (false, s)
    else (qfqFrontSlotRemove s g).bind fun s =>
      (qfqSlotInsert s g q roundedS).map fun s => (true, s)

/-- `qfq_dequeue`, the part that updates the group when the class asks for it. -/
def qfqUpdateGroup (s : Qfq) (g : ℕ) : Option Qfq :=
  let oldF := (s.priv.groups g).F
  let (cl, s) := qfqSlotScan s g
  match cl with
  | none => (unmarkGroup s g .ER).bind fun s => qfqUnblockGroups s g oldF
  | some q =>
    let roundedS := qfqRoundDown (s.ext q).S (s.priv.groups g).slotShift
    if (s.priv.groups g).S = roundedS then some s
    else
      (unmarkGroup (setGroupTimes s g roundedS) g .ER).bind fun s =>
      (qfqCalcState s (s.priv.groups g)).bind fun st =>
      (markGroup s g st).bind fun s => qfqUnblockGroups s g oldF

/-- `qfq_dequeue`, the part after the packet was taken from the class `q` of the group `g`. -/
def qfqServed (s : Qfq) (g : ℕ) (q : QPtr) (len : BitVec 64) : Option Qfq :=
  let oldV := s.priv.V
  (qfqUpdateClass (setV s (oldV + len * BitVec.ofNat 64 iwsum)) g q).bind fun r =>
  (if r.1 then qfqUpdateGroup r.2 g else some r.2).bind fun s => qfqUpdateEligible s oldV

/-- `qfq_dequeue`. -/
def qfqDequeue (s : Qfq) : Option (Option Mbuf × Qfq) :=
  if s.priv.bitmaps .ER = 0 then some (none, s)
  else
    (qfqFfs (s.priv.bitmaps .ER)).bind fun g =>
    ((s.priv.groups g).slots (s.priv.groups g).front).head?.bind fun q =>
      match s.dequeue q with
      | (none, s) => some (none, s)
      | (some m, s) => (qfqServed s g q m.len64).map fun s => (some m, s)

/-- `qfq_update_start`: the start time of a class of the group `g` that was idle. -/
def qfqUpdateStart (s : Qfq) (g : ℕ) (q : QPtr) : Option (BitVec 64) :=
  let F := (s.ext q).F
  let V := s.priv.V
  let shift := (s.priv.groups g).slotShift
  let roundedF := qfqRoundDown F shift
  let limit := qfqRoundDown V shift + 1 <<< shift
  if !qfqGt F V || qfqGt roundedF limit then
    -- the timestamp is stale
    let mask := maskFrom (s.priv.bitmaps .ER) (s.priv.groups g).index
    if mask = 0 then some V
    else (qfqFfs mask).map fun next =>
      let nextF := (s.priv.groups next).F
      if qfqGt roundedF nextF then nextF else V
  else some F

/-- `qfq_enqueue`, the part that makes room for a class that starts at `roundedS`, unless its
group starts earlier. -/
def qfqUpdateState (s : Qfq) (g : ℕ) (S roundedS : BitVec 64) : Option Qfq :=
  let grp := s.priv.groups g
  if grp.fullSlots ≠ 0 && !qfqGt grp.S S then some s
  else
    let moved := if grp.fullSlots ≠ 0 then
        (qfqSlotRotate s g roundedS).bind fun s =>
        (unmarkGroup s g .IR).bind fun s => unmarkGroup s g .IB
      else if s.priv.bitmaps .ER = 0 && qfqGt roundedS s.priv.V then some (setV s roundedS)
      else some s
    moved.bind fun s =>
    let s := setGroupTimes s g roundedS
    (qfqCalcState s (s.priv.groups g)).bind fun st => markGroup s g st

/-- `qfq_enqueue`, the part for a class that was idle. -/
def qfqActivate (s : Qfq) (q : QPtr) (m : Mbuf) : Option Qfq :=
  (s.ext q).grp.bind fun g =>
  (qfqUpdateStart s g q).bind fun S =>
    let s := setTimes s q S (S + m.len64 * (s.ext q).invW.setWidth 64)
    let roundedS := qfqRoundDown S (s.priv.groups g).slotShift
    (qfqUpdateState s g S roundedS).bind fun s => qfqSlotInsert s g q roundedS

/-- `qfq_enqueue`. -/
def qfqEnqueue (s : Qfq) (q : QPtr) (m : Mbuf) (r : Draws) : Option (Bool × Qfq) :=
  let activate := fun s : Qfq => (qfqActivate s q m).map fun s => (false, s)
  if s.isHead q m then activate s
  else
    let (drop, s) := s.enqueue q m false r
    if drop then some (true, s)
    else if s.isHead q m then activate s
    else some (false, s)

/-- `EINVAL`. -/
def einval : ℕ := 22

/-- `qfq_new_queue`. -/
def qfqNewQueue (s : Qfq) (q : QPtr) : Option (ℕ × Qfq) :=
  let w : BitVec 32 := BitVec.ofInt 32 (s.par q 0)
  let w := if w = 0 ∨ qfqMaxWeight < w.toNat then 1 else w
  let invW : BitVec 32 := BitVec.ofNat 32 (qfqOneFP / w.toNat)
  let w : BitVec 32 := BitVec.ofNat 32 (qfqOneFP / invW.toNat)
  let x := { s.ext q with lmax := BitVec.ofInt 32 (s.par q 1), invW := invW }
  if qfqMaxWsum < (s.priv.wsum + w).toNat then
    some (einval, { s with ext := Function.update s.ext q x })
  else
    let x := { x with grp := some (qfqCalcIndex invW x.lmax) }
    some (0, { s with
      ext := Function.update s.ext q x
      priv := { s.priv with wsum := s.priv.wsum + w } })

/-- `qfq_free_queue`. -/
def qfqFreeQueue (s : Qfq) (q : QPtr) (_safe : Bool) : Option (Bool × Qfq) :=
  let x := s.ext q
  if x.invW = 0 then some (false, s)
  else
    let w : BitVec 32 := BitVec.ofNat 32 (qfqOneFP / x.invW.toNat)
    some (false, { s with
      priv := { s.priv with wsum := s.priv.wsum - w }
      ext := Function.update s.ext q { x with invW := 0 } })

/-- `qfq_new_fsk`: the weight is between 1 and `QFQ_MAX_WEIGHT`, the largest packet between 1 and
2000 bytes. -/
def qfqNewFsk (fs : DnFsk) : DnFsk :=
  let par := Function.update fs.fs.par 0 (ipdnBoundVar (fs.fs.par 0) 1 1 qfqMaxWeight)
  let par := Function.update par 1 (ipdnBoundVar (fs.fs.par 1) 1500 1 2000)
  { fs with fs := { fs.fs with par := par } }

/-- `qfq_new_sched` on zeroed memory. -/
def qfqNewSched : QfqSched where
  groups i := { index := i, slotShift := qfqMtuShift + qfqFracBits - (qfqMaxIndex - i) }

/-- `qfq_desc`. -/
def qfqDesc : DnAlg QfqSched QfqClass where
  zeroExt := {}
  newFsk := qfqNewFsk
  newQueue := qfqNewQueue
  freeQueue := qfqFreeQueue
  enqueue := qfqEnqueue
  dequeue := qfqDequeue

end Dummynet
