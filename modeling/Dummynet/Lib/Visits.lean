import Mathlib

/-!
# Callbacks with a memory

A callback that is called for one element after the other, and whose answers may depend on the
elements for which it was called before.

## Main definitions

* `Visits.Answered`: a callback has said yes to an element.

## Main results

* `Visits.answered_concat`: one more call.
* `Visits.answered_iff_of_nodup`: the answer for an element that is visited once.
-/

namespace Visits

variable {α : Type*} {f : List α → α → Bool} {vs w d r : List α} {p q : α}

/-- The callback said yes to `p` when it was called for the elements of the list. -/
def Answered (f : List α → α → Bool) (vs : List α) (p : α) : Prop :=
  ∃ d r, vs = d ++ p :: r ∧ f d p = true

theorem Answered.mem (h : Answered f vs p) : p ∈ vs := by
  obtain ⟨d, r, rfl, -⟩ := h
  simp

theorem not_answered_nil : ¬ Answered f [] p := fun h => List.not_mem_nil h.mem

/-- The first call, and the others. -/
theorem exists_split_cons {P : List α → α → Prop} :
    (∃ d r, p :: w = d ++ q :: r ∧ P d q) ↔
      q = p ∧ P [] p ∨ ∃ d r, w = d ++ q :: r ∧ P (p :: d) q := by
  constructor
  · rintro ⟨d, r, hd, hP⟩
    rcases d with _ | ⟨x, d⟩
    · obtain ⟨rfl, rfl⟩ := List.cons.inj hd
      exact .inl ⟨rfl, hP⟩
    · obtain ⟨rfl, rfl⟩ := List.cons.inj hd
      exact .inr ⟨d, r, rfl, hP⟩
  · rintro (⟨rfl, hP⟩ | ⟨d, r, rfl, hP⟩)
    · exact ⟨[], w, rfl, hP⟩
    · exact ⟨p :: d, r, rfl, hP⟩

/-- **One more call.** -/
theorem answered_concat :
    Answered f (vs ++ [p]) q ↔ Answered f vs q ∨ q = p ∧ f vs p = true := by
  constructor
  · rintro ⟨d, r, hd, hq⟩
    rcases List.eq_nil_or_concat' r with rfl | ⟨r', b, rfl⟩
    · obtain ⟨rfl, hp⟩ := List.append_inj' hd rfl
      obtain rfl := (List.cons.inj hp).1
      exact .inr ⟨rfl, hq⟩
    · rw [← List.cons_append, ← List.append_assoc] at hd
      exact .inl ⟨d, r', (List.append_inj' hd rfl).1, hq⟩
  · rintro (⟨d, r, rfl, hq⟩ | ⟨rfl, hq⟩)
    · exact ⟨d, r ++ [p], by simp, hq⟩
    · exact ⟨vs, [], rfl, hq⟩

/-- In a list without repetitions, the answer is that of the one call. -/
theorem answered_iff_of_nodup (hnd : (d ++ p :: r).Nodup) :
    Answered f (d ++ p :: r) p ↔ f d p = true := by
  constructor
  · rintro ⟨d', r', heq, hp⟩
    have hd : p ∉ d := fun h => List.disjoint_of_nodup_append hnd h List.mem_cons_self
    have hr : p ∉ r := (List.nodup_cons.1 hnd.of_append_right).1
    obtain ⟨rfl, -⟩ := (List.append_cons_inj_of_notMem hd hr).1 heq
    exact hp
  · exact fun h => ⟨d, r, rfl, h⟩

end Visits
