import Dummynet.Ht
import Dummynet.Lib.Runs
import Mathlib

/-!
# The hash table as a finite set

What lookups, insertions, removals and scans do to the set of the stored objects, over whole runs.

## Main definitions

* `HtOp`, `htStep`: the operations, and the table as a machine.
* `HtSetStep`: what the operations do to the set.
* `Holds`: the buckets are rings and hold the objects of a set.

## Main results

* `dnHtFind_spec`, `dnHtScan_spec`, `dnHtScanBucket_spec`: the operations refine those of the set.
* `ht_refines_set`: so does every run, and no operation follows a null pointer.
-/

namespace Dummynet.Ht

variable {α κ : Type} [DecidableEq α]

/-- The operations on a table. In `find`, `new` is what `newh` returns if it is called. -/
inductive HtOp (α κ : Type)
  | find (key : κ) (flags : HtFlags) (new : Option α)
  | scan (fn : ScanFn α)
  | scanBucket (fn : ScanFn α) (bucket : ℤ)

/-- What the operations return. -/
inductive HtOut (α : Type)
  | obj (o : Option α)
  | count (found : ℕ)
  | bucket (found : ℕ) (next : ℤ)

/-- One operation. The number bounds the rounds of the loops over a bucket. -/
def htStep (c : HtFuncs α κ) (n : ℕ) (h : DnHtTable α) :
    HtOp α κ → Option (HtOut α × DnHtTable α)
  | .find key flags new => (dnHtFind c n h key flags new).map fun r => (.obj r.1, r.2)
  | .scan fn => (dnHtScan fn n h).map fun r => (.count r.1, r.2)
  | .scanBucket fn bucket =>
    (dnHtScanBucket fn n h bucket).map fun r => (.bucket r.1.1 r.1.2, r.2)

/-- The bucket that `dn_ht_scan_bucket` scans. -/
def clampBucket (buckets : ℕ) (bucket : ℤ) : ℕ :=
  if (buckets : ℤ) < bucket ∨ bucket < 0 then 0 else bucket.toNat

/-- What the operations do to the set of the stored objects, where `obj` is the hash value of an
object. A lookup returns one of the objects that it looks for. A scan goes through the objects, or
those of a bucket, in any order. -/
inductive HtSetStep (c : HtFuncs α κ) (obj : α → BitVec 32) (buckets : ℕ) :
    Finset α → HtOp α κ → HtOut α → Finset α → Prop
  | found {S : Finset α} {key : κ} {flags : HtFlags} {p : α} (new : Option α) :
      p ∈ S → c.found key flags p = true →
      HtSetStep c obj buckets S (.find key flags new) (.obj (some p))
        (if flags.remove then S.erase p else S)
  | insert {S : Finset α} {key : κ} {flags : HtFlags} {new : Option α} {p : α} :
      (∀ q ∈ S, c.found key flags q = false) → flags.insert = true → c.object key new = some p →
      p ∉ S → HtSetStep c obj buckets S (.find key flags new) (.obj (some p)) (insert p S)
  | missing {S : Finset α} {key : κ} {flags : HtFlags} {new : Option α} :
      (∀ q ∈ S, c.found key flags q = false) →
      (flags.insert = true → c.object key new = none) →
      HtSetStep c obj buckets S (.find key flags new) (.obj none) S
  | scan {S : Finset α} (fn : ScanFn α) {l : List α} : l.Nodup → (∀ p, p ∈ l ↔ p ∈ S) →
      HtSetStep c obj buckets S (.scan fn) (.count (scanList fn [] l).1.length)
        (S \ (scanList fn [] l).1.toFinset)
  | scanBucket {S : Finset α} (fn : ScanFn α) (bucket : ℤ) {l : List α} : l.Nodup →
      (∀ p, p ∈ l ↔ p ∈ S ∧ bucketOf buckets (obj p) = clampBucket buckets bucket) →
      HtSetStep c obj buckets S (.scanBucket fn bucket)
        (.bucket (scanList fn [] l).1.length (if (scanList fn [] l).2.2
          then clampBucket buckets bucket else clampBucket buckets bucket + 1))
        (S \ (scanList fn [] l).1.toFinset)

/-- An object that matches a key has the hash value of the key. -/
def HtFuncs.Compat (c : HtFuncs α κ) (obj : α → BitVec 32) : Prop :=
  ∀ p key flags, c.matches' p key flags = true → c.hash key flags = obj p

/-- The object `p` can be reached from the pointer to the last object of a bucket. -/
def DnHtTable.Stores (h : DnHtTable α) (p : α) : Prop :=
  ∃ i ≤ h.buckets, ∃ t, h.ht i = some t ∧
    Relation.ReflTransGen (fun x y => h.next x = some y) t p

/-- What the callers promise, where `stored` are the objects in the table. A key that is a pointer
to a stored object has the hash value of the object. An object that is inserted has the hash value
of its key, and it is a new one, unless the lookup finds one. -/
def HtOp.Allowed (c : HtFuncs α κ) (obj : α → BitVec 32) (stored : α → Prop) : HtOp α κ → Prop
  | .find key flags new =>
    (flags.matchPtr = true → ∀ p, c.toPtr key = some p → stored p → c.hash key flags = obj p) ∧
      (flags.insert = true → ∀ p, c.object key new = some p → c.hash key flags = obj p ∧
        (stored p → ∃ q, stored q ∧ c.found key flags q = true))
  | _ => True

/-- The buckets of the table are rings with the objects in `L`, which are those of the set `S`, each
in the bucket of its hash value. -/
structure Holds (obj : α → BitVec 32) (h : DnHtTable α) (L : ℕ → List α) (S : Finset α) : Prop where
  ring : ∀ i ≤ h.buckets, Ring.IsRing h.next (L i).head? (h.ht i) (L i)
  mem : ∀ i ≤ h.buckets, ∀ p, p ∈ L i ↔ p ∈ S ∧ bucketOf h.buckets (obj p) = i
  entries : h.entries = BitVec.ofNat 32 S.card

variable {c : HtFuncs α κ} {obj : α → BitVec 32} {h h' : DnHtTable α} {L : ℕ → List α}
  {S S' : Finset α} {i n : ℕ} {fn : ScanFn α}

namespace Holds

omit [DecidableEq α] in
theorem mem_home (hh : Holds obj h L S) {p : α} : p ∈ L (bucketOf h.buckets (obj p)) ↔ p ∈ S := by
  rw [hh.mem _ (bucketOf_le _ _)]
  simp

theorem length_le (hh : Holds obj h L S) (hi : i ≤ h.buckets) : (L i).length ≤ S.card := by
  rw [← List.toFinset_card_of_nodup (hh.ring i hi).nodup]
  exact Finset.card_le_card fun p hp => ((hh.mem i hi p).1 (List.mem_toFinset.1 hp)).1

omit [DecidableEq α] in
/-- A change in one bucket. -/
theorem update (hh : Holds obj h L S) (hi : i ≤ h.buckets) {l l' : List α}
    (hsame : SameOutside h h' i l) (hl : ∀ p ∈ l, p ∈ S → bucketOf h.buckets (obj p) = i)
    (hring : Ring.IsRing h'.next l'.head? (h'.ht i) l')
    (hmem : ∀ p, p ∈ l' ↔ p ∈ S' ∧ bucketOf h.buckets (obj p) = i)
    (hS : ∀ p, bucketOf h.buckets (obj p) ≠ i → (p ∈ S' ↔ p ∈ S))
    (hent : h'.entries = BitVec.ofNat 32 S'.card) :
    Holds obj h' (Function.update L i l') S' := by
  refine ⟨fun j hj => ?_, fun j hj p => ?_, hent⟩
  · rw [hsame.buckets] at hj
    rcases eq_or_ne j i with rfl | hji
    · rw [Function.update_self]
      exact hring
    · rw [Function.update_of_ne hji, hsame.ht j hji]
      refine (hh.ring j hj).congr fun p hp => hsame.next p fun hpl => hji ?_
      obtain ⟨hpS, hpj⟩ := (hh.mem j hj p).1 hp
      exact hpj.symm.trans (hl p hpl hpS)
  · rw [hsame.buckets] at hj ⊢
    rcases eq_or_ne j i with rfl | hji
    · rw [Function.update_self]
      exact hmem p
    · rw [Function.update_of_ne hji, hh.mem j hj]
      refine and_congr_left fun hpj => (hS p ?_).symm
      rw [hpj]
      exact hji

omit [DecidableEq α] in
/-- The objects in the set are those that can be reached. -/
theorem stores (hh : Holds obj h L S) (p : α) : h.Stores p ↔ p ∈ S := by
  constructor
  · rintro ⟨i, hi, t, ht, hreach⟩
    have hring := hh.ring i hi
    rw [ht] at hring
    have : p ∈ L i := by
      induction hreach with
      | refl => exact hring.tail_mem
      | tail _ hnext ih =>
        obtain ⟨y, hy, hmem⟩ := hring.next_mem ih
        obtain rfl := Option.some.inj (hy.symm.trans hnext)
        exact hmem
    exact ((hh.mem i hi p).1 this).1
  · intro hp
    have hpL := hh.mem_home.2 hp
    have hi := bucketOf_le h.buckets (obj p)
    generalize bucketOf h.buckets (obj p) = i at hpL hi
    have hring := hh.ring i hi
    cases ht : h.ht i with
    | none =>
      rw [ht] at hring
      rw [List.getLast?_eq_none_iff.1 hring.tail_eq.symm] at hpL
      exact absurd hpL List.not_mem_nil
    | some t =>
      rw [ht] at hring
      obtain ⟨d, r, hdr⟩ := List.append_of_mem hpL
      refine ⟨i, hi, t, ht, ?_⟩
      clear hpL
      -- along the ring, from its end to the object
      induction d using List.reverseRecOn generalizing p r with
      | nil =>
        rw [hdr] at hring
        exact .single hring.next_prev
      | append_singleton d q ih =>
        rw [List.append_assoc, List.singleton_append] at hdr
        have hpq := hring
        rw [hdr] at hpq
        have hnext := (Ring.IsRing.next_prev (d := d ++ [q]) (by simpa using hpq))
        rw [Ring.prev_concat] at hnext
        have hq : q ∈ S := ((hh.mem i hi q).1 (by rw [hdr]; simp)).1
        exact (ih q hq (p :: r) hdr).tail hnext

/-! ### Lookups -/

/-- An object goes. -/
theorem unlink (hh : Holds obj h L S) (hi : i ≤ h.buckets) {tail p : α} {d r : List α}
    (hht : h.ht i = some tail) (hL : L i = d ++ p :: r) :
    ∃ L', Holds obj (h.unlink i tail (Ring.prev tail d) p (h.next p)) L' (S.erase p) := by
  have hring := hh.ring i hi
  rw [hL, hht] at hring
  obtain ⟨hring', hsame, hent, -⟩ := unlink_spec (h.next p) hring hht
  rw [Function.update_eq_self] at hring' hsame hent
  have hmem := hh.mem i hi
  rw [hL] at hmem
  have hp := (hmem p).1 (by simp)
  have hnd := List.nodup_middle.1 hring.nodup
  refine ⟨_, hh.update hi hsame (fun q hq hqS => ((hmem q).1 hq).2) hring' (fun q => ?_)
    (fun q hq => ?_) ?_⟩
  · rw [Finset.mem_erase, and_assoc, ← hmem q, List.mem_append, List.mem_append, List.mem_cons]
    have hpq : q = p → q ∉ d ++ r := fun he => he ▸ (List.nodup_cons.1 hnd).1
    rw [List.mem_append] at hpq
    tauto
  · rw [Finset.mem_erase, and_iff_right]
    rintro rfl
    exact hq hp.2
  · have hcard := Finset.card_erase_add_one hp.1
    rw [hent]
    change h.entries - 1 = _
    rw [hh.entries, ← hcard, BitVec.ofNat_add]
    exact BitVec.add_sub_cancel _ _

/-- An object comes. -/
theorem push (hh : Holds obj h L S) {p : α} (hp : p ∉ S) (hi : bucketOf h.buckets (obj p) = i) :
    ∃ L', Holds obj (h.push i p) L' (insert p S) := by
  have hle : i ≤ h.buckets := hi ▸ bucketOf_le _ _
  have hmem := hh.mem i hle
  have hpL : p ∉ L i := fun hpL => hp ((hmem p).1 hpL).1
  obtain ⟨l', hring, hl', hsame, hent⟩ := push_spec (hh.ring i hle) hpL
  refine ⟨_, hh.update hle hsame (fun q hq hqS => ?_) hring (fun q => ?_) (fun q hq => ?_) ?_⟩
  · rcases List.mem_cons.1 hq with rfl | hq
    · exact absurd hqS hp
    · exact ((hmem q).1 hq).2
  · rw [hl', Finset.mem_insert, hmem]
    constructor
    · rintro (rfl | hq)
      · exact ⟨.inl rfl, hi⟩
      · exact ⟨.inr hq.1, hq.2⟩
    · rintro ⟨rfl | hq, hq'⟩
      · exact .inl rfl
      · exact .inr ⟨hq, hq'⟩
  · rw [Finset.mem_insert, or_iff_right]
    rintro rfl
    exact hq hi
  · rw [hent, hh.entries, Finset.card_insert_of_notMem hp, BitVec.ofNat_add]
    rfl

/-- The end of a lookup that has found nothing. -/
theorem insert_spec (hh : Holds obj h L S) {key : κ} {flags : HtFlags} {new : Option α}
    (ha : (HtOp.find key flags new).Allowed c obj (· ∈ S))
    (hnone : ∀ q ∈ S, c.found key flags q = false)
    (hi : bucketOf h.buckets (c.hash key flags) = i) :
    ∃ o h' L' S', dnHtInsert c h i key flags new = (o, h') ∧ Holds obj h' L' S' ∧
      h'.buckets = h.buckets ∧ HtSetStep c obj h.buckets S (.find key flags new) (.obj o) S' ∧
      S'.card ≤ S.card + 1 := by
  unfold dnHtInsert
  split_ifs with hins
  · cases hobj : c.object key new with
    | none => exact ⟨none, h, L, S, rfl, hh, rfl, .missing hnone fun _ => hobj, by omega⟩
    | some p =>
      obtain ⟨hhash, hnew⟩ := ha.2 hins p hobj
      have hp : p ∉ S := fun hp => by
        obtain ⟨q, hq, hfound⟩ := hnew hp
        rw [hnone q hq] at hfound
        cases hfound
      obtain ⟨L', hL'⟩ := hh.push hp (hhash ▸ hi)
      refine ⟨some p, _, L', _, rfl, hL', ?_, .insert hnone hins hobj hp,
        Finset.card_insert_le p S⟩
      unfold DnHtTable.push
      split <;> rfl
  · exact ⟨none, h, L, S, rfl, hh, rfl, .missing hnone fun h => absurd h hins, by omega⟩

/-- What a lookup looks for is in the bucket of the key. -/
theorem found_home (hh : Holds obj h L S) (hc : c.Compat obj) {key : κ} {flags : HtFlags}
    {new : Option α} (ha : (HtOp.find key flags new).Allowed c obj (· ∈ S)) {q : α} (hq : q ∈ S)
    (hfound : c.found key flags q = true) :
    q ∈ L (bucketOf h.buckets (c.hash key flags)) := by
  have hhash : c.hash key flags = obj q := by
    unfold HtFuncs.found at hfound
    split_ifs at hfound with hptr
    · exact ha.1 hptr q (of_decide_eq_true hfound) hq
    · exact hc q key flags hfound
  rw [hhash]
  exact hh.mem_home.2 hq

/-- **Lookups.** A lookup returns an object that it looks for if one is stored, and removes it if it
is told so. Otherwise it adds a new object, or does nothing. -/
theorem dnHtFind_spec (hh : Holds obj h L S) (hc : c.Compat obj) (hn : S.card ≤ n) {key : κ}
    {flags : HtFlags} {new : Option α} (ha : (HtOp.find key flags new).Allowed c obj (· ∈ S)) :
    ∃ o h' L' S', dnHtFind c n h key flags new = some (o, h') ∧ Holds obj h' L' S' ∧
      h'.buckets = h.buckets ∧ HtSetStep c obj h.buckets S (.find key flags new) (.obj o) S' ∧
      S'.card ≤ S.card + 1 := by
  have hi := bucketOf_le h.buckets (c.hash key flags)
  have hhome := fun q => hh.found_home (q := q) hc ha
  obtain ⟨i, hbucket⟩ : ∃ i, bucketOf h.buckets (c.hash key flags) = i := ⟨_, rfl⟩
  rw [hbucket] at hi hhome
  have hring := hh.ring i hi
  simp only [dnHtFind, hbucket]
  cases hht : h.ht i with
  | none =>
    rw [hht] at hring
    have hempty : L i = [] := List.getLast?_eq_none_iff.1 hring.tail_eq.symm
    have hnone : ∀ q ∈ S, c.found key flags q = false := fun q hq => by
      by_contra hfound
      have := hhome q hq (by simpa using hfound)
      rw [hempty] at this
      exact List.not_mem_nil this
    obtain ⟨o, h', L', S', heq, hrest⟩ := hh.insert_spec ha hnone hbucket
    exact ⟨o, h', L', S', congrArg some heq, hrest⟩
  | some tail =>
    rw [hht] at hring
    have hne : L i ≠ [] := List.ne_nil_of_mem hring.tail_mem
    have hlen := hh.length_le hi
    rcases lookup_spec (c.found key flags) (n := n) (d := []) hring hne (by omega) (by simp)
      with ⟨hlook, hnone⟩ | ⟨d, p, r, hL, hfound, hlook⟩
    · rw [Ring.prev_nil] at hlook
      have hnone : ∀ q ∈ S, c.found key flags q = false := fun q hq => by
        by_contra hfound
        have hfound : c.found key flags q = true := by simpa using hfound
        have := hnone q (hhome q hq hfound)
        rw [hfound] at this
        cases this
      obtain ⟨o, h', L', S', heq, hrest⟩ := hh.insert_spec ha hnone hbucket
      refine ⟨o, h', L', S', ?_, hrest⟩
      simp [hlook, heq]
    · rw [Ring.prev_nil] at hlook
      rw [List.nil_append] at hL
      have hp : p ∈ S := ((hh.mem i hi p).1 (by rw [hL]; simp)).1
      have hstep : HtSetStep c obj h.buckets S (.find key flags new) _ _ := .found new hp hfound
      obtain ⟨L', hL'⟩ := hh.unlink hi hht hL
      simp only [hlook, Option.bind_eq_bind, Option.bind_some]
      cases hrem : flags.remove with
      | true =>
        rw [hrem] at hstep
        exact ⟨some p, _, L', _, rfl, hL', rfl, hstep,
          Finset.card_erase_le.trans (Nat.le_succ _)⟩
      | false =>
        rw [hrem] at hstep
        exact ⟨some p, h, L, S, rfl, hh, rfl, hstep, by omega⟩

/-! ### Scans -/

/-- A scan of a bucket that leaves the ring `l'`. -/
theorem scanned_ring {s t : Scan α} {b : Bool} (hh : Holds obj s.h L S) (hi : i ≤ s.h.buckets)
    (hs : Scanned fn i [] (L i) s b t) {l' : List α}
    (hring : Ring.IsRing t.h.next l'.head? (t.h.ht i) l')
    (hl' : ∀ x, x ∈ l' ↔ x ∈ L i ∧ x ∉ (scanList fn s.visited (L i)).1) :
    Holds obj t.h (Function.update L i l') (S \ (scanList fn s.visited (L i)).1.toFinset) := by
  have hmem := hh.mem i hi
  have hsub : (scanList fn s.visited (L i)).1.Sublist (L i) := scanList_sublist
  refine hh.update hi hs.same (fun q hq _ => ((hmem q).1 hq).2) hring (fun q => ?_)
    (fun q hq => ?_) ?_
  · rw [hl', hmem, Finset.mem_sdiff, List.mem_toFinset, and_right_comm]
  · rw [Finset.mem_sdiff, List.mem_toFinset, and_iff_left_iff_imp]
    intro _ hrem
    exact hq ((hmem q).1 (hsub.subset hrem)).2
  · have hsubset : (scanList fn s.visited (L i)).1.toFinset ⊆ S := fun q hq =>
      ((hmem q).1 (hsub.subset (List.mem_toFinset.1 hq))).1
    have hcard := Finset.card_sdiff_add_card_eq_card hsubset
    rw [List.toFinset_card_of_nodup ((hh.ring i hi).nodup.sublist hsub)] at hcard
    rw [hs.entries, hh.entries, ← hcard, BitVec.ofNat_add]
    exact BitVec.add_sub_cancel _ _

/-- A scan of a bucket. -/
theorem scanned {s t : Scan α} {b : Bool} (hh : Holds obj s.h L S) (hi : i ≤ s.h.buckets)
    (hs : Scanned fn i [] (L i) s b t) :
    ∃ l', Holds obj t.h (Function.update L i l') (S \ (scanList fn s.visited (L i)).1.toFinset) := by
  obtain ⟨l', hring, hl'⟩ := hs.ring
  exact ⟨l', hh.scanned_ring hi hs hring hl'⟩

/-- The scan of the table from the bucket `i` on. -/
theorem scanFrom_spec (fn : ScanFn α) :
    ∀ {m i : ℕ} {s : Scan α} {L : ℕ → List α} {S : Finset α}, Holds obj s.h L S →
      i + m = s.h.buckets + 1 → S.card ≤ n →
      ∃ t L', scanFrom fn n m i s = some t ∧
        t.found = s.found + (scanList fn s.visited ((List.range' i m).flatMap L)).1.length ∧
        Holds obj t.h L' (S \ (scanList fn s.visited ((List.range' i m).flatMap L)).1.toFinset) ∧
        t.h.buckets = s.h.buckets ∧
        t.visited = (scanList fn s.visited ((List.range' i m).flatMap L)).2.1 := by
  intro m
  induction m with
  | zero =>
    intro i s L S hh _ _
    exact ⟨s, L, rfl, rfl, by simpa [scanList] using hh, rfl, rfl⟩
  | succ m ih =>
    intro i s L S hh hm hn
    have hi : i ≤ s.h.buckets := by omega
    have hring := hh.ring i hi
    rw [List.range'_succ, List.flatMap_cons]
    rw [scanFrom]
    cases hht : s.h.ht i with
    | none =>
      rw [hht] at hring
      have hempty : L i = [] := List.getLast?_eq_none_iff.1 hring.tail_eq.symm
      rw [hempty, List.nil_append]
      exact ih hh (by omega) hn
    | some tail =>
      rw [hht] at hring
      have hne : L i ≠ [] := List.ne_nil_of_mem hring.tail_mem
      have hlen := hh.length_le hi
      obtain ⟨b, t, hbody, hs⟩ := scanBody_spec fn (n := n) (d := []) hring hht hne
        (by omega)
      rw [Ring.prev_nil] at hbody
      obtain ⟨l', hh'⟩ := hh.scanned hi hs
      have hrest : (List.range' (i + 1) m).flatMap (Function.update L i l') =
          (List.range' (i + 1) m).flatMap L := by
        refine List.flatMap_congr fun j hj => Function.update_of_ne ?_ _ _
        rw [List.mem_range'_1] at hj
        omega
      simp only [hbody, Option.bind_eq_bind, Option.bind_some]
      rw [scanList_append]
      have hb := hs.stopped
      cases hstop : (scanList fn s.visited (L i)).2.2 with
      | true =>
        rw [hstop] at hb
        subst hb
        exact ⟨t, _, rfl, hs.found, hh', hs.same.buckets, hs.visited⟩
      | false =>
        rw [hstop] at hb
        subst hb
        have hcard := Finset.card_le_card
          (Finset.sdiff_subset (s := S) (t := (scanList fn s.visited (L i)).1.toFinset))
        obtain ⟨u, L', hu, hfound, hhu, hbuckets, hvisited⟩ := ih (i := i + 1) hh'
          (by rw [hs.same.buckets]; omega) (hcard.trans hn)
        rw [hrest, hs.visited] at hfound hhu hvisited
        refine ⟨u, L', hu, ?_, ?_, hbuckets.trans hs.same.buckets, hvisited⟩
        · rw [hfound, hs.found]
          simp only [Bool.false_eq_true, if_false, List.length_append]
          omega
        · simp only [Bool.false_eq_true, if_false, List.toFinset_append]
          rw [← Finset.sup_eq_union, ← sdiff_sdiff_left]
          exact hhu

omit [DecidableEq α] in
/-- The objects of all buckets are those of the set. -/
theorem mem_all (hh : Holds obj h L S) {p : α} :
    p ∈ (List.range' 0 (h.buckets + 1)).flatMap L ↔ p ∈ S := by
  rw [List.mem_flatMap]
  constructor
  · rintro ⟨j, hj, hp⟩
    rw [List.mem_range'_1] at hj
    exact ((hh.mem j (by omega) p).1 hp).1
  · intro hp
    refine ⟨_, ?_, hh.mem_home.2 hp⟩
    have := bucketOf_le h.buckets (obj p)
    rw [List.mem_range'_1]
    omega

omit [DecidableEq α] in
theorem nodup_all (hh : Holds obj h L S) : ((List.range' 0 (h.buckets + 1)).flatMap L).Nodup := by
  rw [List.nodup_flatMap]
  refine ⟨fun j hj => ?_, ?_⟩
  · rw [List.mem_range'_1] at hj
    exact (hh.ring j (by omega)).nodup
  · refine (List.nodup_range' (s := 0) (n := h.buckets + 1)).imp_of_mem
      fun hj hk hjk p hp hp' => ?_
    rw [List.mem_range'_1] at hj hk
    exact hjk (((hh.mem _ (by omega) p).1 hp).2.symm.trans ((hh.mem _ (by omega) p).1 hp').2)

/-- **Scans.** A scan goes through all objects until it is stopped. -/
theorem dnHtScan_spec (fn : ScanFn α) (hh : Holds obj h L S) (hn : S.card ≤ n) :
    ∃ o h' L' S', dnHtScan fn n h = some (o, h') ∧ Holds obj h' L' S' ∧ h'.buckets = h.buckets ∧
      HtSetStep c obj h.buckets S (.scan fn) (.count o) S' ∧ S'.card ≤ S.card := by
  obtain ⟨t, L', ht, hfound, hhold, hbuckets, -⟩ := scanFrom_spec fn (m := h.buckets + 1)
    (i := 0) (s := ⟨h, [], 0⟩) hh (by simp) hn
  rw [Nat.zero_add] at hfound
  refine ⟨t.found, t.h, L', _, by simp [dnHtScan, ht], hhold, hbuckets, ?_,
    Finset.card_le_card Finset.sdiff_subset⟩
  rw [hfound]
  exact .scan fn hh.nodup_all fun p => hh.mem_all

/-- **Scans of a bucket.** -/
theorem dnHtScanBucket_spec (fn : ScanFn α) (hh : Holds obj h L S) (hn : S.card ≤ n) (bucket : ℤ) :
    ∃ o h' L' S', dnHtScanBucket fn n h bucket = some (o, h') ∧ Holds obj h' L' S' ∧
      h'.buckets = h.buckets ∧
      HtSetStep c obj h.buckets S (.scanBucket fn bucket) (.bucket o.1 o.2) S' ∧
      S'.card ≤ S.card := by
  have hi : clampBucket h.buckets bucket ≤ h.buckets := by
    unfold clampBucket
    split_ifs <;> omega
  have hring := hh.ring _ hi
  have hstep : HtSetStep c obj h.buckets S (.scanBucket fn bucket) _ _ :=
    .scanBucket fn bucket hring.nodup (hh.mem _ hi)
  have hclamp : (if (h.buckets : ℤ) < bucket ∨ bucket < 0 then 0 else bucket.toNat) =
      clampBucket h.buckets bucket := rfl
  simp only [dnHtScanBucket, hclamp]
  generalize clampBucket h.buckets bucket = i at hi hring hstep
  cases hht : h.ht i with
  | none =>
    rw [hht] at hring
    have hempty : L i = [] := List.getLast?_eq_none_iff.1 hring.tail_eq.symm
    rw [hempty] at hstep
    exact ⟨_, h, L, _, rfl, by simpa [scanList] using hh, rfl, hstep,
      Finset.card_le_card Finset.sdiff_subset⟩
  | some tail =>
    rw [hht] at hring
    have hne : L i ≠ [] := List.ne_nil_of_mem hring.tail_mem
    have hlen := hh.length_le hi
    obtain ⟨b, t, hbody, hs⟩ := scanBody_spec fn (n := n) (d := []) (s := ⟨h, [], 0⟩) hring
      hht hne (by omega)
    rw [Ring.prev_nil] at hbody
    obtain ⟨l', hh'⟩ := Holds.scanned (s := ⟨h, [], 0⟩) hh hi hs
    refine ⟨_, t.h, _, _, by simp only [hbody]; rfl, hh', hs.same.buckets, ?_,
      Finset.card_le_card Finset.sdiff_subset⟩
    have hfound := hs.found
    have hb := hs.stopped
    rw [Nat.zero_add] at hfound
    rw [hfound, hb]
    cases hstop : (scanList fn [] (L i)).2.2
    · rw [hstop] at hstep
      exact hstep
    · rw [hstop] at hstep
      exact hstep

end Holds

/-! ### Runs -/

omit [DecidableEq α] in
/-- A new table is empty. -/
theorem dnHtInit_holds {next : α → Option α} {buckets : ℤ} {malloc : Bool}
    (hinit : dnHtInit none next buckets malloc = some h) : Holds obj h (fun _ => []) ∅ := by
  unfold dnHtInit dnHtInit.new at hinit
  split_ifs at hinit
  obtain rfl := Option.some.inj hinit
  exact ⟨fun _ _ => .nil _, fun _ _ p => by simp, rfl⟩

omit [DecidableEq α] in
/-- A table can be made with any number of buckets between 1 and 65536. -/
theorem dnHtInit_isSome (next : α → Option α) {buckets : ℤ} (h : 1 ≤ buckets ∧ buckets ≤ 65536) :
    (dnHtInit none next buckets true).isSome = true := by
  rw [dnHtInit, if_neg (by omega)]
  rfl

/-- A lookup that returns nothing changes nothing. -/
theorem dnHtFind_none {key : κ} {flags : HtFlags} {new : Option α}
    (hfind : dnHtFind c n h key flags new = some (none, h')) : h' = h := by
  have hins : ∀ i, dnHtInsert c h i key flags new = (none, h') → h' = h := by
    intro i hi
    unfold dnHtInsert at hi
    split_ifs at hi
    · split at hi
      · exact absurd (Prod.mk.inj hi).1 (by simp)
      · exact (Prod.mk.inj hi).2.symm
    · exact (Prod.mk.inj hi).2.symm
  unfold dnHtFind at hfind
  dsimp only at hfind
  split at hfind
  · exact hins _ (Option.some.inj hfind)
  · obtain ⟨r, -, hfind⟩ := Option.bind_eq_some_iff.1 hfind
    split at hfind
    · exact absurd (Prod.mk.inj (Option.some.inj hfind)).1 (by simp)
    · exact hins _ (Option.some.inj hfind)

/-- **One operation** does to the set what it should, and returns. -/
theorem htStep_spec (hh : Holds obj h L S) (hc : c.Compat obj) (hn : S.card ≤ n) {op : HtOp α κ}
    (ha : op.Allowed c obj h.Stores) :
    ∃ o h' L' S', htStep c n h op = some (o, h') ∧ Holds obj h' L' S' ∧ h'.buckets = h.buckets ∧
      HtSetStep c obj h.buckets S op o S' ∧ S'.card ≤ S.card + 1 := by
  cases op with
  | find key flags new =>
    rw [show h.Stores = (· ∈ S) from funext fun p => propext (hh.stores p)] at ha
    obtain ⟨o, h', L', S', heq, hrest⟩ := hh.dnHtFind_spec hc hn ha
    exact ⟨.obj o, h', L', S', by simp [htStep, heq], hrest⟩
  | scan fn =>
    obtain ⟨o, h', L', S', heq, hhold, hb, hstep, hcard⟩ := hh.dnHtScan_spec (c := c) fn hn
    exact ⟨.count o, h', L', S', by simp [htStep, heq], hhold, hb, hstep, by omega⟩
  | scanBucket fn bucket =>
    obtain ⟨o, h', L', S', heq, hhold, hb, hstep, hcard⟩ :=
      hh.dnHtScanBucket_spec (c := c) fn hn bucket
    exact ⟨.bucket o.1 o.2, h', L', S', by simp [htStep, heq], hhold, hb, hstep, by omega⟩

/-- **Refinement.** After every run on a new table, each bucket is a ring that ends at its pointer
and holds the stored objects with its hash values, `entries` is the number of the stored objects,
and the outputs are those of the operations on the set. The next operation returns, and if it is a
lookup without result, it changes nothing. -/
theorem ht_refines_set (hc : c.Compat obj) {next : α → Option α} {buckets : ℤ} {malloc : Bool}
    (hinit : dnHtInit none next buckets malloc = some h) {l : List (HtOp α κ × HtOut α)}
    {t : DnHtTable α}
    (hrun : Runs.Run (htStep c n) (fun h op _ => op.Allowed c obj h.Stores) h l t)
    (hn : l.length ≤ n) :
    ∃ L S, Runs.Trace (HtSetStep c obj t.buckets) ∅ l S ∧ Holds obj t L S ∧
      (∀ op : HtOp α κ, op.Allowed c obj t.Stores → (htStep c n t op).isSome = true) ∧
      ∀ key flags new t', htStep c n t (.find key flags new) = some (.obj none, t') → t' = t := by
  have hinv : ∃ L S, Runs.Trace (HtSetStep c obj t.buckets) ∅ l S ∧ Holds obj t L S ∧
      S.card ≤ l.length := by
    induction hrun with
    | nil => exact ⟨_, ∅, .nil ∅, dnHtInit_holds hinit, le_rfl⟩
    | @snoc t u l op o _ hok hst ih =>
      rw [List.length_append, List.length_singleton] at hn ⊢
      obtain ⟨L, S, htrace, hh, hcard⟩ := ih (by omega)
      obtain ⟨o', u', L', S', heq, hh', hb, hstep, hcard'⟩ := htStep_spec hh hc (hcard.trans (by omega : l.length ≤ n)) hok
      obtain ⟨rfl, rfl⟩ := Prod.mk.inj (Option.some.inj (heq.symm.trans hst))
      rw [hb]
      exact ⟨L', S', htrace.snoc hstep, hh', by omega⟩
  obtain ⟨L, S, htrace, hh, hcard⟩ := hinv
  refine ⟨L, S, htrace, hh, fun op hop => ?_, fun key flags new t' ht' => ?_⟩
  · obtain ⟨o, u, -, -, heq, -⟩ := htStep_spec hh hc (hcard.trans hn) hop
    rw [heq]
    rfl
  · obtain ⟨⟨o, u⟩, hfind, heq⟩ := Option.map_eq_some_iff.1 ht'
    obtain ⟨ho, rfl⟩ := Prod.mk.inj heq
    obtain rfl : o = none := HtOut.obj.inj ho
    exact dnHtFind_none hfind

/-- A table of numbers, which are their own keys and hash values. -/
def numbers : HtFuncs ℕ ℕ where
  hash := fun key _ => BitVec.ofNat 32 key
  matches' := fun p key _ => p == key
  toPtr := some
  newh := false

/-- The number 5 is added to a table for 16 buckets. -/
theorem ht_refines_set_numbers : ∃ L S, Runs.Trace (HtSetStep numbers (BitVec.ofNat 32) 15) ∅
      [(.find 5 { (default : HtFlags) with insert := true } none, .obj (some 5))] S ∧
    Holds (BitVec.ofNat 32) ⟨15, 1, Function.update (fun _ => none) 5 (some 5),
      Function.update (fun _ => none) 5 (some 5)⟩ L S := by
  have hinit : dnHtInit (α := ℕ) none (fun _ => none) 16 true =
      some ⟨15, 0, fun _ => none, fun _ => none⟩ := by rfl
  have hrun : Runs.Run (htStep numbers 1)
      (fun h op _ => op.Allowed numbers (BitVec.ofNat 32) h.Stores)
      ⟨15, 0, fun _ => none, fun _ => none⟩
      [(.find 5 { (default : HtFlags) with insert := true } none, .obj (some 5))]
      ⟨15, 1, Function.update (fun _ => none) 5 (some 5),
        Function.update (fun _ => none) 5 (some 5)⟩ := by
    refine .single ⟨fun h => absurd h (by decide), fun _ p hp =>
      ⟨congrArg (BitVec.ofNat 32) (Option.some.inj hp), ?_⟩⟩ (by rfl)
    rintro ⟨i, -, t, ht, -⟩
    cases ht
  obtain ⟨L, S, htrace, hh, -⟩ := ht_refines_set (fun p key flags h =>
    congrArg (BitVec.ofNat 32) (eq_of_beq h).symm) hinit hrun (by decide)
  exact ⟨L, S, htrace, hh⟩

end Dummynet.Ht
