import Dummynet.HtRuns
import Dummynet.Lib.Visits

/-!
# What a scan visits

A scan of the table calls its callback once for each object and unlinks those that the callback
gives up. A scan of a bucket that is ended by the callback leaves a ring that starts behind the last
object visited, so that the next scan goes on there.

## Main definitions

* `scanVisits`, `bucketVisits`: the objects for which a scan calls the callback, in their order.
* `GivesUp`: the objects for which the callback has returned `DNHT_SCAN_DEL`.
* `BucketScans`: scans of a bucket that are all ended by the callback.

## Main results

* `scanBody_ring`: the ring that the scan of a bucket leaves.
* `scans_visit`: what a scan visits and unlinks, and where the scans of a bucket go on.
-/

namespace Dummynet.Ht

variable {α : Type} [DecidableEq α] {obj : α → BitVec 32} {h h' t : DnHtTable α} {L : ℕ → List α}
  {S : Finset α} {i n : ℕ} {fn : ScanFn α} {tail : α} {d r vs ws l : List α}

/-- The objects for which `dn_ht_scan` calls the callback. -/
def scanVisits (fn : ScanFn α) (n : ℕ) (h : DnHtTable α) : Option (List α) :=
  (scanFrom fn n (h.buckets + 1) 0 ⟨h, [], 0⟩).map Scan.visited

/-- The objects for which `dn_ht_scan_bucket` calls the callback. -/
def bucketVisits (fn : ScanFn α) (n : ℕ) (h : DnHtTable α) (bucket : ℤ) : Option (List α) :=
  let i := clampBucket h.buckets bucket
  match h.ht i with
  | none => some []
  | some tail => (scanBody fn i tail n tail ⟨h, [], 0⟩).map fun t => t.2.visited

/-- The callback returned `DNHT_SCAN_DEL` for the object when it was called for those in the
list. -/
def GivesUp (fn : ScanFn α) (vs : List α) (p : α) : Prop :=
  Visits.Answered (fun d q => (fn d q).del) vs p

/-- The callback returned `DNHT_SCAN_END` when it was called for the objects in the list. -/
def Ends (fn : ScanFn α) (vs : List α) : Prop :=
  ∃ p, Visits.Answered (fun d q => (fn d q).stop) vs p

/-! ### Lists -/

/-- What a scan leaves of a list: the objects that it has visited and kept, and those that it has
not come to. -/
def scanLeft (fn : ScanFn α) : List α → List α → List α × List α
  | _, [] => ([], [])
  | vs, p :: l =>
    let rest := if (fn vs p).stop then ([], l) else scanLeft fn (vs ++ [p]) l
    (if (fn vs p).del then rest.1 else p :: rest.1, rest.2)

section
omit [DecidableEq α]

theorem scanLeft_stop {p : α} (h : (fn vs p).stop = true) :
    scanLeft fn vs (p :: l) = (if (fn vs p).del then [] else [p], l) := by
  rw [scanLeft, h]
  rfl

theorem scanLeft_next {p : α} (h : ¬ (fn vs p).stop = true) :
    scanLeft fn vs (p :: l) = (if (fn vs p).del then (scanLeft fn (vs ++ [p]) l).1
      else p :: (scanLeft fn (vs ++ [p]) l).1, (scanLeft fn (vs ++ [p]) l).2) := by
  rw [scanLeft, if_neg h]

/-- A scan visits a list up to the object where it is stopped. -/
theorem scanList_visited (fn : ScanFn α) (vs l : List α) : ∃ w, l = w ++ (scanLeft fn vs l).2 ∧
    (scanList fn vs l).2.1 = vs ++ w ∧ (l ≠ [] → w ≠ []) ∧ (scanLeft fn vs l).1.Sublist w ∧
    ((scanList fn vs l).2.2 = false → (scanLeft fn vs l).2 = []) ∧
    ((scanList fn vs l).2.2 = true → ∃ d p r, w = d ++ p :: r ∧ (fn (vs ++ d) p).stop = true) ∧
    ∀ q, q ∈ (scanList fn vs l).1 ↔
      ∃ d r, w = d ++ q :: r ∧ (fn (vs ++ d) q).del = true := by
  induction l generalizing vs with
  | nil => exact ⟨[], rfl, by simp [scanList], fun h => absurd rfl h, .slnil, fun _ => rfl,
      fun h => by simp [scanList] at h, fun q => by simp [scanList]⟩
  | cons p l ih =>
    by_cases hstop : (fn vs p).stop = true
    · rw [scanLeft_stop hstop, scanList_stop hstop]
      refine ⟨[p], rfl, rfl, by simp, by cases (fn vs p).del <;> simp, by simp, fun _ => ⟨[], p, [], rfl, by simpa using hstop⟩,
        fun q => ?_⟩
      rw [Visits.exists_split_cons (P := fun d q => (fn (vs ++ d) q).del = true), List.append_nil]
      cases (fn vs p).del <;> simp
    · rw [scanLeft_next hstop, scanList_next hstop]
      obtain ⟨w, hl, hvis, -, hsub, hrest, hstopped, hdel⟩ := @ih (vs ++ [p])
      refine ⟨p :: w, by rw [List.cons_append, ← hl], by rw [hvis]; simp, by simp, ?_, hrest,
        fun h => ?_, fun q => ?_⟩
      · cases (fn vs p).del
        · exact hsub.cons_cons p
        · exact hsub.cons p
      · obtain ⟨d, q, r, rfl, hq⟩ := hstopped h
        exact ⟨p :: d, q, r, rfl, by simpa using hq⟩
      · rw [Visits.exists_split_cons (P := fun d q => (fn (vs ++ d) q).del = true), List.append_nil]
        have hq := hdel q
        simp only [List.append_assoc, List.singleton_append] at hq
        cases hp : (fn vs p).del <;> simp [hq]

/-- A scan leaves the objects that it does not delete. -/
theorem mem_scanLeft (fn : ScanFn α) (vs : List α) (hl : l.Nodup) {q : α} :
    q ∈ (scanLeft fn vs l).2 ++ (scanLeft fn vs l).1 ↔ q ∈ l ∧ q ∉ (scanList fn vs l).1 := by
  induction l generalizing vs with
  | nil => simp [scanLeft, scanList]
  | cons p l ih =>
    obtain ⟨hp, hl⟩ := List.nodup_cons.1 hl
    have hqp : q = p → q ∉ l := fun h => h ▸ hp
    have hqd : q = p → q ∉ (scanList fn (vs ++ [p]) l).1 :=
      fun h hq => hqp h (scanList_sublist.subset hq)
    by_cases hstop : (fn vs p).stop = true
    · rw [scanLeft_stop hstop, scanList_stop hstop]
      cases (fn vs p).del <;> simp <;> tauto
    · rw [scanLeft_next hstop, scanList_next hstop]
      have hih := @ih (vs ++ [p]) hl
      rw [List.mem_append] at hih
      cases (fn vs p).del <;> simp <;> tauto

end

/-! ### The ring of a bucket -/

/-- **The ring after a scan.** It starts with the objects that were not visited. -/
theorem scanBody_ring :
    ∀ {n : ℕ} {d r : List α} {s u : Scan α} {head : Option α} {b : Bool},
      Ring.IsRing s.h.next head (some tail) (d ++ r) → s.h.ht i = some tail → r ≠ [] →
      scanBody fn i tail n (Ring.prev tail d) s = some (b, u) →
      Ring.IsRing u.h.next
        ((scanLeft fn s.visited r).2 ++ (d ++ (scanLeft fn s.visited r).1)).head? (u.h.ht i)
        ((scanLeft fn s.visited r).2 ++ (d ++ (scanLeft fn s.visited r).1)) := by
  intro n
  induction n with
  | zero => exact fun _ _ _ h => absurd h (by simp [scanBody])
  | succ n ih =>
    intro d r s u head b hring hht hne h
    obtain ⟨p, r, rfl⟩ := List.exists_cons_of_ne_nil hne
    have hlast : p = tail ↔ r = [] := hring.eq_tail_iff
    obtain ⟨t, ht⟩ : ∃ t, s.visit fn i tail (Ring.prev tail d) p = t := ⟨_, rfl⟩
    obtain ⟨d', hd'⟩ : ∃ d', d' = if (fn s.visited p).del then d else d ++ [p] := ⟨_, rfl⟩
    obtain ⟨hring', -, hvis, -, -, hne'⟩ := visit_spec hring hht hd' ht
    have hpp : (if (fn s.visited p).del then Ring.prev tail d else p) = Ring.prev tail d' := by
      rw [hd']
      split_ifs <;> simp
    simp only [scanBody, hring.next_prev, Option.bind_eq_bind, Option.bind_some, hpp, ht] at h
    by_cases hstop : (fn s.visited p).stop = true
    · rw [if_pos hstop] at h
      obtain ⟨rfl, rfl⟩ := Prod.mk.inj (Option.some.inj h)
      have hd : d ++ (if (fn s.visited p).del then [] else [p]) = d' := by
        rw [hd']
        split_ifs <;> simp
      rw [scanLeft_stop hstop, hd]
      exact stopped_ring hring' fun hr => hne' (mt hlast.1 hr)
    · rw [if_neg hstop] at h
      have hd : ∀ l : List α, d ++ (if (fn s.visited p).del then l else p :: l) = d' ++ l := by
        intro l
        rw [hd']
        split_ifs <;> simp
      rw [scanLeft_next hstop, hd, ← hvis]
      by_cases hr : r = []
      · rw [if_pos (hlast.2 hr)] at h
        obtain ⟨rfl, rfl⟩ := Prod.mk.inj (Option.some.inj h)
        subst hr
        exact hring'
      · rw [if_neg (mt hlast.1 hr)] at h
        rw [hne' (mt hlast.1 hr)] at hring'
        exact ih hring' (hne' (mt hlast.1 hr)) hr h

/-- **A scan of a bucket.** It visits objects at the start of the ring, at least one if there is
one, and goes on with the next one the next time. -/
theorem bucket_step (fn : ScanFn α) (hh : Holds obj h L S) (hn : S.card ≤ n)
    (hi : i ≤ h.buckets) :
    ∃ found stopped h' w rest kept, dnHtScanBucket fn n h i =
        some ((found, if stopped then (i : ℤ) else i + 1), h') ∧
      bucketVisits fn n h i = some w ∧ L i = w ++ rest ∧ (L i ≠ [] → w ≠ []) ∧
      kept.Sublist w ∧ (∀ q ∈ w, q ∈ kept ↔ ¬ GivesUp fn w q) ∧
      (stopped = false → rest = []) ∧ (stopped = true → Ends fn w) ∧
      Holds obj h' (Function.update L i (rest ++ kept)) (S \ (scanList fn [] (L i)).1.toFinset) ∧
      h'.buckets = h.buckets := by
  have hclamp : clampBucket h.buckets i = i := by
    rw [clampBucket, if_neg (by omega), Int.toNat_natCast]
  have hring := hh.ring i hi
  obtain ⟨w, hl, hvis, hne, hsub, hrest, hstop, hdel⟩ := scanList_visited fn [] (L i)
  simp only [bucketVisits, dnHtScanBucket, hclamp]
  rw [show (if (h.buckets : ℤ) < (i : ℤ) ∨ (i : ℤ) < 0 then 0 else (i : ℤ).toNat) = i from hclamp]
  cases hht : h.ht i with
  | none =>
    rw [hht] at hring
    have hempty : L i = [] := List.getLast?_eq_none_iff.1 hring.tail_eq.symm
    refine ⟨0, false, h, [], [], [], rfl, rfl, hempty, fun h => absurd hempty h, .slnil,
      fun q hq => absurd hq List.not_mem_nil, fun _ => rfl, fun h => absurd h (by simp), ?_, rfl⟩
    rw [hempty, List.append_nil, ← hempty, Function.update_eq_self, hempty]
    simpa [scanList] using hh
  | some tail =>
    rw [hht] at hring
    have hL : L i ≠ [] := List.ne_nil_of_mem hring.tail_mem
    have hlen := hh.length_le hi
    obtain ⟨b, t, hbody, hs⟩ := scanBody_spec fn (n := n) (d := []) (s := ⟨h, [], 0⟩) hring
      hht hL (by omega)
    have hleft := scanBody_ring (d := []) (s := ⟨h, [], 0⟩) hring hht hL hbody
    have hvisited := hs.visited
    have hb := hs.stopped
    rw [Ring.prev_nil] at hbody
    rw [List.nil_append] at hleft
    rw [hvis, List.nil_append] at hvisited
    simp only [hbody, Option.bind_eq_bind, Option.bind_some, Option.map_some]
    refine ⟨t.found, !b, t.h, w, _, (scanLeft fn [] (L i)).1, ?_, by rw [hvisited], hl,
      hne, hsub, fun q hq => ?_, fun hb' => hrest ?_, fun hb' => ?_, hh.scanned_ring (s := ⟨h, [], 0⟩) hi hs hleft
        fun q => mem_scanLeft fn [] hring.nodup, hs.same.buckets⟩
    · cases b <;> rfl
    · have hmem := mem_scanLeft fn [] (q := q) hring.nodup
      have hql : q ∈ L i := by rw [hl]; exact List.mem_append_left _ hq
      have hqr : q ∉ (scanLeft fn [] (L i)).2 := by
        have hnd := hring.nodup
        rw [hl] at hnd
        exact List.disjoint_of_nodup_append hnd hq
      rw [List.mem_append, or_iff_right hqr, and_iff_right hql, hdel] at hmem
      simpa [GivesUp, Visits.Answered] using hmem
    · rw [hb] at hb'
      simpa using hb'
    · rw [hb] at hb'
      obtain ⟨d, p, r, hw, hp⟩ := hstop (by simpa using hb')
      exact ⟨p, d, r, hw, by simpa using hp⟩

/-- Calls of `dn_ht_scan_bucket` on a bucket, all ended by the callback, with the objects that they
visit. -/
inductive BucketScans (n i : ℕ) (h : DnHtTable α) : List α → DnHtTable α → Prop
  | nil : BucketScans n i h [] h
  | snoc {vs ws : List α} {t u : DnHtTable α} {fn : ScanFn α} {found : ℕ} :
      BucketScans n i h vs t → dnHtScanBucket fn n t i = some ((found, (i : ℤ)), u) →
      bucketVisits fn n t i = some ws → BucketScans n i h (vs ++ ws) u

/-- What was visited so far is the start of the ring, and the next scan goes on with the rest; or
the ring has been gone through. -/
def GoesOn (ring vs left : List α) : Prop :=
  (∃ rest, ring = vs ++ rest ∧ rest <+: left) ∨ ring <+: vs

omit [DecidableEq α] in
theorem GoesOn.step {ring left w rest kept : List α} (h : GoesOn ring vs left)
    (hl : left = w ++ rest) : GoesOn ring (vs ++ w) (rest ++ kept) := by
  subst hl
  rcases h with ⟨r, rfl, hr⟩ | h
  · rcases List.prefix_or_prefix_of_prefix hr (List.prefix_append w rest) with hr | ⟨r', rfl⟩
    · exact .inr ((List.prefix_append_right_inj vs).2 hr)
    · refine .inl ⟨r', by simp, ?_⟩
      exact ((List.prefix_append_right_inj w).1 hr).trans (List.prefix_append _ _)
  · exact .inr (h.trans (List.prefix_append _ _))

/-- After scans of a bucket, the table is well formed, and the next scan goes on where the last
one was ended. -/
theorem BucketScans.goesOn (hh : Holds obj h L S) (hn : S.card ≤ n) (hi : i ≤ h.buckets)
    (hscans : BucketScans n i h vs t) :
    ∃ L' S', Holds obj t L' S' ∧ S'.card ≤ n ∧ t.buckets = h.buckets ∧ GoesOn (L i) vs (L' i) := by
  induction hscans with
  | nil => exact ⟨L, S, hh, hn, rfl, .inl ⟨L i, rfl, List.prefix_rfl⟩⟩
  | @snoc vs ws t u fn found _ hscan hvisits ih =>
    obtain ⟨L', S', ht, hn', hb, hgoes⟩ := ih
    obtain ⟨found', stopped, u', w, rest, kept, hscan', hvisits', hl, -, -, -, -, -, hu, hbu⟩ :=
      bucket_step fn ht hn' (hb ▸ hi)
    obtain ⟨-, rfl⟩ := Prod.mk.inj (Option.some.inj (hscan.symm.trans hscan'))
    obtain rfl := Option.some.inj (hvisits.symm.trans hvisits')
    refine ⟨_, _, hu, (Finset.card_le_card Finset.sdiff_subset).trans hn', hbu.trans hb, ?_⟩
    rw [Function.update_self]
    exact hgoes.step hl

/-- **What scans visit.** A scan of the table visits every object once if it is not ended, and
unlinks exactly the objects that the callback gives up. A scan of a bucket that is ended leaves a
ring that starts with the object after the last one visited; and in repeated scans, no object is
skipped or visited twice before the ring has been gone through. -/
theorem scans_visit (hh : Holds obj h L S) (hn : S.card ≤ n) :
    (∀ fn, ∃ found h' vs L' S', dnHtScan fn n h = some (found, h') ∧
      scanVisits fn n h = some vs ∧ vs.Nodup ∧ (∀ p ∈ vs, p ∈ S) ∧
      (¬ Ends fn vs → ∀ p ∈ S, p ∈ vs) ∧ Holds obj h' L' S' ∧ h'.buckets = h.buckets ∧
      (∀ p, p ∈ S' ↔ p ∈ S ∧ ¬ GivesUp fn vs p) ∧ found + S'.card = S.card) ∧
    (∀ i ≤ h.buckets, ∀ fn found h', dnHtScanBucket fn n h i = some ((found, (i : ℤ)), h') →
      ∃ w rest kept, bucketVisits fn n h i = some w ∧ L i = w ++ rest ∧ kept.Sublist w ∧
        (∀ q ∈ w, q ∈ kept ↔ ¬ GivesUp fn w q) ∧
        ∀ fn', ∃ w', bucketVisits fn' n h' i = some w' ∧ w' <+: rest ++ kept ∧
          (rest ++ kept ≠ [] → w' ≠ [])) ∧
    ∀ i ≤ h.buckets, ∀ vs t, BucketScans n i h vs t → ∀ fn,
      ∃ w, bucketVisits fn n t i = some w ∧ (vs ++ w <+: L i ∨ L i <+: vs ++ w) := by
  refine ⟨fun fn => ?_, fun i hi fn found h' hscan => ?_, fun i hi vs t hscans fn => ?_⟩
  · obtain ⟨t, L', ht, hfound, hhold, hbuckets, hvisited⟩ := Holds.scanFrom_spec fn
      (m := h.buckets + 1) (i := 0) (s := ⟨h, [], 0⟩) hh (by simp) hn
    obtain ⟨w, hl, hvis, -, -, hrest, hstop, hdel⟩ := scanList_visited fn []
      ((List.range' 0 (h.buckets + 1)).flatMap L)
    have hnd := hh.nodup_all
    have hall := fun p => hh.mem_all (p := p)
    simp only at hvisited hfound hhold hbuckets
    generalize (List.range' 0 (h.buckets + 1)).flatMap L = l at *
    rw [hvis, List.nil_append] at hvisited
    have hwl : ∀ p ∈ w, p ∈ S := fun p hp => (hall p).1 (by rw [hl]; exact List.mem_append_left _ hp)
    have hgives : ∀ p, p ∈ (scanList fn [] l).1 ↔ GivesUp fn w p := fun p => by
      simpa [GivesUp, Visits.Answered] using hdel p
    refine ⟨t.found, t.h, w, L', _, by simp [dnHtScan, ht], by simp [scanVisits, ht, hvisited], ?_,
      hwl, fun hne p hp => ?_, hhold, hbuckets, fun p => ?_, ?_⟩
    · rw [hl] at hnd
      exact hnd.of_append_left
    · have hgo : (scanList fn [] l).2.2 = false := by
        by_contra hc
        obtain ⟨d, q, r, hw, hq⟩ := hstop (by simpa using hc)
        exact hne ⟨q, d, r, hw, by simpa using hq⟩
      have := (hall p).2 hp
      rwa [hl, hrest hgo, List.append_nil] at this
    · rw [Finset.mem_sdiff, List.mem_toFinset, hgives]
    · have hsub : (scanList fn [] l).1.toFinset ⊆ S := fun p hp =>
        (hall p).1 (scanList_sublist.subset (List.mem_toFinset.1 hp))
      have hcard := Finset.card_sdiff_add_card_eq_card hsub
      rw [List.toFinset_card_of_nodup (hnd.sublist scanList_sublist)] at hcard
      omega
  · obtain ⟨_, _, u, w, rest, kept, hscan', hvisits, hl, -, hsub, hkept, -, -, hu, hbu⟩ :=
      bucket_step fn hh hn hi
    obtain ⟨-, rfl⟩ := Prod.mk.inj (Option.some.inj (hscan.symm.trans hscan'))
    refine ⟨w, rest, kept, hvisits, hl, hsub, hkept, fun fn' => ?_⟩
    obtain ⟨-, -, -, w', rest', -, -, hvisits', hl', hne, -⟩ := bucket_step fn' hu
      ((Finset.card_le_card Finset.sdiff_subset).trans hn) (hbu.symm ▸ hi)
    rw [Function.update_self] at hl' hne
    exact ⟨w', hvisits', hl' ▸ List.prefix_append _ _, hne⟩
  · obtain ⟨L', S', ht, hn', hb, hgoes⟩ := hscans.goesOn hh hn hi
    obtain ⟨-, -, -, w, rest, -, -, hvisits, hl, -⟩ := bucket_step fn ht hn' (hb ▸ hi)
    refine ⟨w, hvisits, ?_⟩
    have hstep : GoesOn (L i) (vs ++ w) (rest ++ []) := hgoes.step hl
    rcases hstep with ⟨r, hr, -⟩ | hr
    · exact .inl (hr ▸ List.prefix_append _ _)
    · exact .inr hr

/-- A bucket with the numbers 1 and 2, which the callback gives up. -/
theorem scans_visit_numbers : ∃ w', bucketVisits (fun _ _ => ⟨true, false, none⟩) 2
      (⟨0, 2, fun _ => some 2, fun x => if x = 1 then some 2 else some 1⟩ : DnHtTable ℕ) 0 =
        some w' ∧
    ([] ++ w' <+: [1, 2] ∨ [1, 2] <+: [] ++ w') := by
  have hh : Holds (fun _ => 0) (⟨0, 2, fun _ => some 2, fun x => if x = 1 then some 2 else some 1⟩ :
      DnHtTable ℕ) (fun _ => [1, 2]) {1, 2} := by
    refine ⟨fun i hi => ⟨by decide, rfl, rfl, ?_⟩, fun i hi p => ?_, rfl⟩
    · exact ⟨rfl, rfl, rfl⟩
    · have : i = 0 := Nat.le_zero.1 hi
      subst this
      simp [bucketOf]
  exact (scans_visit (n := 2) hh (by decide)).2.2 0 le_rfl [] _ .nil _

end Dummynet.Ht
