import Dummynet.Lib.Ring
import Mathlib

/-!
# The hash table

Each bucket of the table is a circular list of objects that are linked through a field of theirs.
The table has a pointer to the last object of each bucket.

## Main definitions

* `DnHtTable`: the table, with the link fields of the objects.
* `dnHtInit`, `dnHtFind`, `dnHtScan`, `dnHtScanBucket`: the operations.
* `scanList`: what a scan does with a list of objects.

## Main results

* `lookup_spec`, `scanBody_spec`: the loops over a bucket.
* `unlink_spec`, `push_spec`: how the ring of a bucket changes.
-/

namespace Dummynet.Ht

variable {α κ : Type} [DecidableEq α]

/-- `struct dn_ht`, where `buckets` is one less than the number of buckets. `next` are the link
fields of the objects. -/
structure DnHtTable (α : Type) where
  buckets : ℕ
  entries : BitVec 32
  ht : ℕ → Option α
  next : α → Option α

/-- The flags of `dn_ht_find`. -/
structure HtFlags where
  keyIsObj : Bool
  matchPtr : Bool
  insert : Bool
  unique : Bool
  remove : Bool
  deriving DecidableEq, Repr, Inhabited

/-- The functions of a table. A key in `κ` comes with the argument that is passed on to them.
`toPtr` is the key taken for a pointer, and `newh` says whether a function `newh` is given. -/
structure HtFuncs (α κ : Type) where
  hash : κ → HtFlags → BitVec 32
  matches' : α → κ → HtFlags → Bool
  toPtr : κ → Option α
  newh : Bool

/-- The number of buckets, minus 1, for a wanted number of them. -/
def roundBuckets (n : ℕ) : ℕ :=
  let b := n ||| n >>> 1
  let b := b ||| b >>> 2
  let b := b ||| b >>> 4
  let b := b ||| b >>> 8
  let b := b ||| b >>> 16
  let bMin := b >>> 1
  if bMin * 4000 / 3000 < n then b else bMin

/-- `dn_ht_init`. A given table is used again if it is large enough. -/
def dnHtInit (h : Option (DnHtTable α)) (next : α → Option α) (buckets : ℤ) (malloc : Bool) :
    Option (DnHtTable α) :=
  if buckets < 1 ∨ 65536 < buckets then none
  else
    let n := roundBuckets buckets.toNat
    match h with
    | some h => if n ≤ h.buckets then some { h with buckets := n } else new n
    | none => new n
where
  new (n : ℕ) : Option (DnHtTable α) :=
    if malloc then some ⟨n, 0, fun _ => none, next⟩ else none

/-- The bucket for a hash value. A table with two buckets uses the first one only. -/
def bucketOf (buckets : ℕ) (hash : BitVec 32) : ℕ :=
  if buckets = 1 then 0 else hash.toNat &&& buckets

namespace DnHtTable

/-- Unlinks `p`, which follows `pp` in the bucket `i` with the last object `tail`. `nextp` is the
object after `p`. -/
def unlink (h : DnHtTable α) (i : ℕ) (tail pp p : α) (nextp : Option α) : DnHtTable α :=
  { h with
    entries := h.entries - 1
    next := if pp = p then h.next else Function.update h.next pp nextp
    ht := if p = tail then Function.update h.ht i (if pp = p then none else some pp) else h.ht }

/-- Adds `p` to the bucket `i`, before its first object. -/
def push (h : DnHtTable α) (i : ℕ) (p : α) : DnHtTable α :=
  match h.ht i with
  | none => { h with
      entries := h.entries + 1
      ht := Function.update h.ht i (some p)
      next := Function.update h.next p (some p) }
  | some tail => { h with
      entries := h.entries + 1
      next := Function.update (Function.update h.next p (h.next tail)) tail (some p) }

/-- The loop of `dn_ht_find`: the object that is found behind `pp`, with the one before it. The
first number bounds the rounds; a null pointer is not followed. -/
def lookup (h : DnHtTable α) (found : α → Bool) (tail : α) : ℕ → α → Option (Option (α × α))
  | 0, _ => none
  | n + 1, pp => do
    let p ← h.next pp
    if found p then return some (pp, p)
    else if p = tail then return none
    else lookup h found tail n p

end DnHtTable

/-- What a lookup looks for. -/
def HtFuncs.found (c : HtFuncs α κ) (key : κ) (flags : HtFlags) (p : α) : Bool :=
  if flags.matchPtr then c.toPtr key = some p else c.matches' p key flags

/-- The object that is inserted for a key. `new` is what `newh` returns. -/
def HtFuncs.object (c : HtFuncs α κ) (key : κ) (new : Option α) : Option α :=
  if c.newh then new else c.toPtr key

/-- The end of `dn_ht_find`, if nothing has been found. -/
def dnHtInsert (c : HtFuncs α κ) (h : DnHtTable α) (i : ℕ) (key : κ) (flags : HtFlags)
    (new : Option α) : Option α × DnHtTable α :=
  if flags.insert then
    match c.object key new with
    | some p => (some p, h.push i p)
    | none => (none, h)
  else (none, h)

/-- `dn_ht_find`. `new` is what `newh` returns if it is called. -/
def dnHtFind (c : HtFuncs α κ) (n : ℕ) (h : DnHtTable α) (key : κ) (flags : HtFlags)
    (new : Option α) : Option (Option α × DnHtTable α) :=
  let i := bucketOf h.buckets (c.hash key flags)
  match h.ht i with
  | none => some (dnHtInsert c h i key flags new)
  | some tail => do
    match ← h.lookup (c.found key flags) tail n tail with
    | some (pp, p) =>
      return (some p, if flags.remove then h.unlink i tail pp p (h.next p) else h)
    | none => return dnHtInsert c h i key flags new

/-! ### Scans -/

/-- What a callback returns: `DNHT_SCAN_DEL`, `DNHT_SCAN_END`, and what is in the link field of the
object afterwards, which may be destroyed if it is deleted. -/
structure ScanRet (α : Type) where
  del : Bool
  stop : Bool
  link : Option α

/-- A callback, which may depend on the objects that it was called with before. -/
abbrev ScanFn (α : Type) := List α → α → ScanRet α

/-- What a scan knows: the table, the objects that were visited, and how many were deleted. -/
structure Scan (α : Type) where
  h : DnHtTable α
  visited : List α
  found : ℕ

/-- One call of the callback, with the unlinking of the object `p` behind `pp`. -/
def Scan.visit (fn : ScanFn α) (i : ℕ) (tail pp p : α) (s : Scan α) : Scan α :=
  let nextp := s.h.next p
  let r := fn s.visited p
  if r.del then
    ⟨{ s.h with next := Function.update s.h.next p r.link }.unlink i tail pp p nextp,
      s.visited ++ [p], s.found + 1⟩
  else ⟨s.h, s.visited ++ [p], s.found⟩

/-- The loop of `dn_ht_scan_body`. The result says whether the bucket was scanned to its end. -/
def scanBody (fn : ScanFn α) (i : ℕ) (tail : α) : ℕ → α → Scan α → Option (Bool × Scan α)
  | 0, _, _ => none
  | n + 1, pp, s => do
    let p ← s.h.next pp
    let r := fn s.visited p
    let pp' := if r.del then pp else p
    let t := s.visit fn i tail pp p
    if r.stop then
      return (false, { t with h := { t.h with
        ht := Function.update t.h.ht i (if (t.h.ht i).isNone then none else some pp') } })
    else if p = tail then return (true, t)
    else scanBody fn i tail n pp' t

/-- `dn_ht_scan` from the bucket `i` on, with `m` buckets left. -/
def scanFrom (fn : ScanFn α) (n : ℕ) : ℕ → ℕ → Scan α → Option (Scan α)
  | 0, _, s => some s
  | m + 1, i, s =>
    match s.h.ht i with
    | none => scanFrom fn n m (i + 1) s
    | some tail => do
      match ← scanBody fn i tail n tail s with
      | (true, t) => scanFrom fn n m (i + 1) t
      | (false, t) => return t

/-- `dn_ht_scan`. -/
def dnHtScan (fn : ScanFn α) (n : ℕ) (h : DnHtTable α) : Option (ℕ × DnHtTable α) := do
  let t ← scanFrom fn n (h.buckets + 1) 0 ⟨h, [], 0⟩
  return (t.found, t.h)

/-- `dn_ht_scan_bucket`. The result has the number of the bucket from which the caller goes on. -/
def dnHtScanBucket (fn : ScanFn α) (n : ℕ) (h : DnHtTable α) (bucket : ℤ) :
    Option ((ℕ × ℤ) × DnHtTable α) :=
  let i := if (h.buckets : ℤ) < bucket ∨ bucket < 0 then 0 else bucket.toNat
  match h.ht i with
  | none => some ((0, i + 1), h)
  | some tail => do
    let t ← scanBody fn i tail n tail ⟨h, [], 0⟩
    return ((t.2.found, if t.1 then i + 1 else i), t.2.h)

/-! ### The loops -/

variable {h h' : DnHtTable α} {i n : ℕ} {tail : α} {head : Option α} {d r : List α}

theorem bucketOf_le (buckets : ℕ) (x : BitVec 32) : bucketOf buckets x ≤ buckets := by
  unfold bucketOf
  split_ifs
  · exact Nat.zero_le _
  · exact Nat.and_le_right

/-- The loop of the lookup finds the first object that is wanted, if there is one. -/
theorem lookup_spec (found : α → Bool) :
    ∀ {n : ℕ} {d r : List α}, Ring.IsRing h.next head (some tail) (d ++ r) → r ≠ [] →
      r.length ≤ n → (∀ x ∈ d, found x = false) →
      (h.lookup found tail n (Ring.prev tail d) = some none ∧ ∀ x ∈ d ++ r, found x = false) ∨
        ∃ d' p r', d ++ r = d' ++ p :: r' ∧ found p = true ∧
          h.lookup found tail n (Ring.prev tail d) = some (some (Ring.prev tail d', p)) := by
  intro n
  induction n with
  | zero =>
    intro d r _ hne hn _
    exact absurd (List.length_eq_zero_iff.1 (by omega)) hne
  | succ n ih =>
    intro d r hring hne hn hd
    obtain ⟨p, r', rfl⟩ := List.exists_cons_of_ne_nil hne
    have hlast : p = tail ↔ r' = [] := hring.eq_tail_iff
    simp only [DnHtTable.lookup, hring.next_prev, Option.bind_eq_bind, Option.bind_some]
    cases hp : found p with
    | true => exact .inr ⟨d, p, r', rfl, hp, by simp⟩
    | false =>
      simp only [Bool.false_eq_true, if_false]
      by_cases hr' : r' = []
      · rw [if_pos (hlast.2 hr')]
        refine .inl ⟨rfl, fun x hx => ?_⟩
        subst hr'
        rcases List.mem_append.1 hx with hx | hx
        · exact hd x hx
        · rw [List.mem_singleton.1 hx, hp]
      · rw [if_neg (mt hlast.1 hr')]
        have hd' : ∀ x ∈ d ++ [p], found x = false := fun x hx => by
          rcases List.mem_append.1 hx with hx | hx
          · exact hd x hx
          · rw [List.mem_singleton.1 hx, hp]
        have hring' : Ring.IsRing h.next head (some tail) ((d ++ [p]) ++ r') := by
          rwa [List.append_assoc, List.singleton_append]
        rw [List.length_cons] at hn
        have := ih hring' hr' (by omega) hd'
        rwa [Ring.prev_concat, List.append_assoc, List.singleton_append] at this

/-- What a scan does with a list of objects: those that it deletes, all that it has visited,
and whether it was stopped. -/
def scanList (fn : ScanFn α) : List α → List α → List α × List α × Bool
  | vs, [] => ([], vs, false)
  | vs, p :: l =>
    let rest := if (fn vs p).stop then ([], vs ++ [p], true) else scanList fn (vs ++ [p]) l
    (if (fn vs p).del then p :: rest.1 else rest.1, rest.2)

/-- Outside the bucket `i`, with the content `l`, the tables are the same. -/
structure SameOutside (h h' : DnHtTable α) (i : ℕ) (l : List α) : Prop where
  buckets : h'.buckets = h.buckets
  ht : ∀ j, j ≠ i → h'.ht j = h.ht j
  next : ∀ x, x ∉ l → h'.next x = h.next x

omit [DecidableEq α] in
theorem SameOutside.refl (h : DnHtTable α) (i : ℕ) (l : List α) : SameOutside h h i l :=
  ⟨rfl, fun _ _ => rfl, fun _ _ => rfl⟩

omit [DecidableEq α] in
theorem SameOutside.trans {h'' : DnHtTable α} {l l' : List α} (h₁ : SameOutside h h' i l)
    (h₂ : SameOutside h' h'' i l') (hl : l' ⊆ l) : SameOutside h h'' i l :=
  ⟨h₂.buckets.trans h₁.buckets, fun j hj => (h₂.ht j hj).trans (h₁.ht j hj),
    fun x hx => (h₂.next x fun hx' => hx (hl hx')).trans (h₁.next x hx)⟩

variable {p : α} {nextp link : Option α}

/-- Unlinking removes the object from the ring, whatever has become of its link. -/
theorem unlink_spec (link : Option α) (hring : Ring.IsRing h.next head (some tail) (d ++ p :: r))
    (hht : h.ht i = some tail) :
    let t := { h with next := Function.update h.next p link }.unlink i tail (Ring.prev tail d) p
      (h.next p)
    Ring.IsRing t.next (d ++ r).head? (t.ht i) (d ++ r) ∧ SameOutside h t i (d ++ p :: r) ∧
      t.entries = h.entries - 1 ∧ (p ≠ tail → t.ht i = some tail) := by
  have hp : p ∉ d ++ r := by
    have := List.nodup_middle.1 hring.nodup
    exact (List.nodup_cons.1 this).1
  have hprev : Ring.prev tail d ∈ d ++ p :: r := by
    rcases List.eq_nil_or_concat' d with rfl | ⟨d', b, rfl⟩
    · rw [Ring.prev_nil]
      exact hring.tail_mem
    · simp
  refine ⟨?_, ⟨rfl, fun j hj => ?_, fun x hx => ?_⟩, rfl, fun hpt => ?_⟩
  · have hremove := hring.remove
    have hi : ({ h with next := Function.update h.next p link }.unlink i tail (Ring.prev tail d) p
        (h.next p)).ht i =
        if p = tail then (if Ring.prev tail d = p then none else some (Ring.prev tail d))
        else some tail := by
      simp only [DnHtTable.unlink]
      split_ifs <;> simp [hht]
    rw [hi]
    refine hremove.congr fun x hx => ?_
    have hxp : x ≠ p := fun he => hp (he ▸ hx)
    simp only [DnHtTable.unlink]
    split_ifs
    · exact Function.update_of_ne hxp _ _
    · rcases eq_or_ne x (Ring.prev tail d) with rfl | hne
      · rw [Function.update_self, Function.update_self]
      · rw [Function.update_of_ne hne, Function.update_of_ne hne, Function.update_of_ne hxp]
  · simp only [DnHtTable.unlink]
    split_ifs
    · exact Function.update_of_ne hj _ _
    · exact Function.update_of_ne hj _ _
    · rfl
  · have hxp : x ≠ p := fun he => hx (he ▸ by simp)
    have hxq : x ≠ Ring.prev tail d := fun he => hx (he ▸ hprev)
    simp only [DnHtTable.unlink]
    split_ifs
    · exact Function.update_of_ne hxp _ _
    · rw [Function.update_of_ne hxq, Function.update_of_ne hxp]
  · simp only [DnHtTable.unlink, if_neg hpt, hht]

/-- A new object becomes the first one of its bucket. -/
theorem push_spec {l : List α} (hring : Ring.IsRing h.next l.head? (h.ht i) l) (hp : p ∉ l) :
    ∃ l', Ring.IsRing (h.push i p).next l'.head? ((h.push i p).ht i) l' ∧
      (∀ x, x ∈ l' ↔ x = p ∨ x ∈ l) ∧ SameOutside h (h.push i p) i (p :: l) ∧
      (h.push i p).entries = h.entries + 1 := by
  rcases l with _ | ⟨a, l⟩
  · have hnone : h.ht i = none := hring.tail_eq
    simp only [DnHtTable.push, hnone, Function.update_self]
    exact ⟨[p], .single _ _, fun x => by simp, ⟨rfl, fun j hj => Function.update_of_ne hj _ _,
      fun x hx => Function.update_of_ne (List.ne_of_not_mem_cons hx) _ _⟩, trivial⟩
  · obtain ⟨tail, htail, hpush⟩ := hring.push hp
    have hlast : h.next tail = (a :: l).head? := by
      obtain ⟨l₁, b, hl, hb⟩ := hring.exists_last
      obtain rfl := Option.some.inj (htail.symm.trans hb)
      exact (hl ▸ hring : Ring.IsRing h.next (a :: l).head? (h.ht i) (l₁ ++ [tail])).next_last
    have hne : tail ≠ p := by
      rintro rfl
      exact hp (List.mem_of_getLast? (htail ▸ hring.tail_eq).symm)
    simp only [DnHtTable.push, htail, hlast]
    refine ⟨p :: a :: l, ?_, fun x => List.mem_cons, ⟨rfl, fun _ _ => rfl, fun x hx => ?_⟩, trivial⟩
    · have hrot := hpush.rotate_append
      rw [Function.update_comm hne] at hrot
      have hend : ([p] ++ a :: l).getLast? = some tail := by
        rw [← htail, hring.tail_eq]
        simp [List.getLast?_cons]
      rw [hend] at hrot
      exact hrot
    · have hxt : x ≠ tail := by
        rintro rfl
        exact hx (List.mem_cons_of_mem _ (List.mem_of_getLast? (htail ▸ hring.tail_eq).symm))
      exact (Function.update_of_ne hxt _ _).trans
        (Function.update_of_ne (List.ne_of_not_mem_cons hx) _ _)

section
omit [DecidableEq α]

variable {fn : ScanFn α} {vs l : List α}

theorem scanList_stop {p : α} (h : (fn vs p).stop = true) :
    scanList fn vs (p :: l) = (if (fn vs p).del then [p] else [], vs ++ [p], true) := by
  rw [scanList, h]
  rfl

theorem scanList_next {p : α} (h : ¬ (fn vs p).stop = true) :
    scanList fn vs (p :: l) = (if (fn vs p).del then p :: (scanList fn (vs ++ [p]) l).1
      else (scanList fn (vs ++ [p]) l).1, (scanList fn (vs ++ [p]) l).2) := by
  rw [scanList, if_neg h]

theorem scanList_append {l' : List α} :
    scanList fn vs (l ++ l') =
      if (scanList fn vs l).2.2 then scanList fn vs l
      else ((scanList fn vs l).1 ++ (scanList fn (scanList fn vs l).2.1 l').1,
        (scanList fn (scanList fn vs l).2.1 l').2) := by
  induction l generalizing vs with
  | nil => rfl
  | cons p l ih =>
    rw [List.cons_append]
    by_cases hstop : (fn vs p).stop = true
    · rw [scanList_stop hstop, scanList_stop hstop]
      rfl
    · rw [scanList_next hstop, scanList_next hstop, ih]
      cases (scanList fn (vs ++ [p]) l).2.2 <;> cases (fn vs p).del <;> rfl

theorem scanList_sublist : (scanList fn vs l).1.Sublist l := by
  induction l generalizing vs with
  | nil => exact List.Sublist.refl _
  | cons p l ih =>
    by_cases hstop : (fn vs p).stop = true
    · rw [scanList_stop hstop]
      dsimp only
      split_ifs
      · exact (List.nil_sublist l).cons_cons p
      · exact List.nil_sublist _
    · rw [scanList_next hstop]
      dsimp only
      split_ifs
      · exact ih.cons_cons p
      · exact ih.cons p

end

variable {fn : ScanFn α} {s t : Scan α}

/-- One call of the callback removes the object or keeps it. -/
theorem visit_spec (hring : Ring.IsRing s.h.next head (some tail) (d ++ p :: r))
    (hht : s.h.ht i = some tail) {d' : List α}
    (hd' : d' = if (fn s.visited p).del then d else d ++ [p])
    (ht : s.visit fn i tail (Ring.prev tail d) p = t) :
    Ring.IsRing t.h.next (d' ++ r).head? (t.h.ht i) (d' ++ r) ∧
      SameOutside s.h t.h i (d ++ p :: r) ∧ t.visited = s.visited ++ [p] ∧
      t.found = s.found + (if (fn s.visited p).del then 1 else 0) ∧
      t.h.entries = s.h.entries - (if (fn s.visited p).del then 1 else 0) ∧
      (p ≠ tail → t.h.ht i = some tail) := by
  subst hd' ht
  unfold Scan.visit
  dsimp only
  split_ifs with hdel
  · obtain ⟨h₁, h₂, h₃, h₄⟩ := unlink_spec (fn s.visited p).link hring hht
    exact ⟨h₁, h₂, rfl, rfl, h₃, h₄⟩
  · refine ⟨?_, .refl _ _ _, rfl, rfl, by simp, fun _ => hht⟩
    rw [hht]
    have hhead := hring.head_eq
    rw [List.append_assoc, List.singleton_append, ← hhead]
    exact hring

omit [DecidableEq α] in
/-- A scan that is stopped behind `d` lets the ring end there. -/
theorem stopped_ring (hring : Ring.IsRing h.next (d ++ r).head? (h.ht i) (d ++ r))
    (htail : r ≠ [] → h.ht i = some tail) :
    Ring.IsRing h.next (r ++ d).head? (Function.update h.ht i
      (if (h.ht i).isNone then none else some (Ring.prev tail d)) i) (r ++ d) := by
  have hrot := hring.rotate_append
  have hi : Function.update h.ht i (if (h.ht i).isNone then none else some (Ring.prev tail d)) i =
      (r ++ d).getLast? := by
    rw [Function.update_self]
    have heq := hring.tail_eq
    rcases List.eq_nil_or_concat' d with rfl | ⟨d', b, rfl⟩
    · rw [List.append_nil, Ring.prev_nil]
      rw [List.nil_append] at heq
      rcases eq_or_ne r [] with rfl | hr
      · rw [heq]
        rfl
      · rw [← heq, htail hr]
        rfl
    · have hsome : (h.ht i).isNone = false := by
        rw [heq]
        simp [List.getLast?_append]
      rw [Ring.prev_concat, hsome]
      simp
  rw [← hi] at hrot
  exact hrot

/-- The scan of a bucket from the state `s` on, where `d` was scanned and `l` was not, ends in `t`.
It was stopped if `b` is false. -/
structure Scanned (fn : ScanFn α) (i : ℕ) (d l : List α) (s : Scan α) (b : Bool) (t : Scan α) :
    Prop where
  visited : t.visited = (scanList fn s.visited l).2.1
  stopped : b = !(scanList fn s.visited l).2.2
  found : t.found = s.found + (scanList fn s.visited l).1.length
  entries : t.h.entries = s.h.entries - BitVec.ofNat 32 (scanList fn s.visited l).1.length
  same : SameOutside s.h t.h i (d ++ l)
  ring : ∃ l', Ring.IsRing t.h.next l'.head? (t.h.ht i) l' ∧
    ∀ x, x ∈ l' ↔ x ∈ d ++ l ∧ x ∉ (scanList fn s.visited l).1

/-- **The loop of a scan.** It calls the callback for the objects in their order and removes those
for which it says so. -/
theorem scanBody_spec (fn : ScanFn α) :
    ∀ {n : ℕ} {d r : List α} {s : Scan α} {head : Option α},
      Ring.IsRing s.h.next head (some tail) (d ++ r) → s.h.ht i = some tail → r ≠ [] →
      r.length ≤ n →
      ∃ b t, scanBody fn i tail n (Ring.prev tail d) s = some (b, t) ∧ Scanned fn i d r s b t := by
  intro n
  induction n with
  | zero =>
    intro d r s head _ _ hne hn
    exact absurd (List.length_eq_zero_iff.1 (by omega)) hne
  | succ n ih =>
    intro d r s head hring hht hne hn
    obtain ⟨p, r, rfl⟩ := List.exists_cons_of_ne_nil hne
    have hlast : p = tail ↔ r = [] := hring.eq_tail_iff
    have hp : p ∉ d ++ r := (List.nodup_cons.1 (List.nodup_middle.1 hring.nodup)).1
    obtain ⟨t, ht⟩ : ∃ t, s.visit fn i tail (Ring.prev tail d) p = t := ⟨_, rfl⟩
    obtain ⟨d', hd'⟩ : ∃ d', d' = if (fn s.visited p).del then d else d ++ [p] := ⟨_, rfl⟩
    obtain ⟨hring', hsame, hvis, hfound, hent, hne'⟩ := visit_spec hring hht hd' ht
    have hpp : (if (fn s.visited p).del then Ring.prev tail d else p) = Ring.prev tail d' := by
      rw [hd']
      split_ifs <;> simp
    -- the objects that are left after this round
    have hmem : ∀ x, x ∈ d' ++ r ↔
        x ∈ d ++ p :: r ∧ ¬ ((fn s.visited p).del = true ∧ x = p) := by
      intro x
      have hx : x = p → x ∉ d ++ r := fun he => he ▸ hp
      rw [hd']
      cases (fn s.visited p).del <;> simp at hx ⊢
      all_goals tauto
    simp only [scanBody, hring.next_prev, Option.bind_eq_bind, Option.bind_some, hpp, ht]
    by_cases hstop : (fn s.visited p).stop = true
    · rw [if_pos hstop]
      have hlist := scanList_stop (l := r) hstop
      refine ⟨_, _, rfl, ?_, ?_, ?_, ?_, ?_, ?_⟩
      · rw [hlist, hvis]
      · rw [hlist]
        rfl
      · rw [hlist, hfound]
        cases (fn s.visited p).del <;> rfl
      · rw [hlist, hent]
        cases (fn s.visited p).del <;> rfl
      · refine ⟨hsame.buckets, fun j hj => ?_, hsame.next⟩
        exact (Function.update_of_ne hj _ _).trans (hsame.ht j hj)
      · refine ⟨r ++ d', stopped_ring hring' fun hr => hne' (mt hlast.1 hr),
          fun x => ?_⟩
        · rw [List.mem_append, or_comm, ← List.mem_append, hmem, hlist]
          cases hdel : (fn s.visited p).del <;> simp
    · rw [if_neg hstop]
      have hlist := scanList_next (l := r) hstop
      by_cases hr : r = []
      · rw [if_pos (hlast.2 hr)]
        subst hr
        refine ⟨_, _, rfl, ?_, ?_, ?_, ?_, hsame, ⟨d' ++ [], hring', fun x => ?_⟩⟩
        · rw [hlist, hvis]
          rfl
        · rw [hlist]
          rfl
        · rw [hlist, hfound]
          cases (fn s.visited p).del <;> rfl
        · rw [hlist, hent]
          cases (fn s.visited p).del <;> rfl
        · rw [hmem, hlist]
          cases hdel : (fn s.visited p).del <;> simp [scanList]
      · have hpt : p ≠ tail := mt hlast.1 hr
        rw [if_neg hpt]
        rw [hne' hpt] at hring'
        rw [List.length_cons] at hn
        obtain ⟨b, u, hu, hs⟩ := ih hring' (hne' hpt) hr (by omega)
        rw [← hvis] at hlist
        refine ⟨b, u, hu, ?_, ?_, ?_, ?_, ?_, ?_⟩
        · rw [hs.visited, hlist]
        · rw [hs.stopped, hlist]
        · rw [hs.found, hfound, hlist]
          cases (fn s.visited p).del
          · rfl
          · simp only [if_true, List.length_cons]
            omega
        · rw [hs.entries, hent, hlist]
          cases (fn s.visited p).del
          · simp
          · simp only [if_true, List.length_cons, BitVec.ofNat_add, BitVec.sub_sub]
            rw [BitVec.add_comm]
            rfl
        · exact hsame.trans hs.same fun x hx => ((hmem x).1 hx).1
        · obtain ⟨l', hl', hx⟩ := hs.ring
          refine ⟨l', hl', fun x => ?_⟩
          rw [hx, hmem, hlist, and_assoc]
          cases hdel : (fn s.visited p).del <;> simp

end Dummynet.Ht
