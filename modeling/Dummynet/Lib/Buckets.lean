import Mathlib

/-!
# Buckets

The elements of a family of `n` lists, and what a change of one list does to them.
-/

namespace Buckets

variable {α : Type*} {n i : ℕ} {f g : ℕ → List α} {l : List α} {a : α}

/-- The elements of the first `n` lists. -/
def all (n : ℕ) (f : ℕ → List α) : List α := (List.range n).flatMap f

theorem mem_all : a ∈ all n f ↔ ∃ i < n, a ∈ f i := by simp [all]

theorem all_succ : all (n + 1) f = all n f ++ f n := by
  rw [all, List.range_succ, List.flatMap_append, List.flatMap_cons, List.flatMap_nil,
    List.append_nil, ← all]

theorem all_congr (h : ∀ i < n, f i = g i) : all n f = all n g :=
  List.flatMap_congr fun i hi => h i (List.mem_range.1 hi)

theorem all_perm (h : ∀ i, (f i).Perm (g i)) : (all n f).Perm (all n g) :=
  List.Perm.flatMap_left _ fun i _ => h i

theorem all_nil (h : ∀ i, f i = []) : all n f = [] := by
  rw [all, List.flatMap_eq_nil_iff]
  exact fun i _ => h i

/-- The elements of one list and those of the others. -/
theorem all_update (hi : i < n) (l : List α) :
    (all n (Function.update f i l)).Perm (l ++ all n (Function.update f i [])) := by
  induction n with
  | zero => exact absurd hi (Nat.not_lt_zero _)
  | succ n ih =>
    rw [all_succ, all_succ]
    rcases Nat.lt_succ_iff_lt_or_eq.1 hi with hlt | rfl
    · rw [Function.update_of_ne hlt.ne', Function.update_of_ne hlt.ne', ← List.append_assoc]
      exact (ih hlt).append_right _
    · have heq : ∀ l', all i (Function.update f i l') = all i f := fun l' =>
        all_congr fun j hj => Function.update_of_ne hj.ne _ _
      rw [heq, heq, Function.update_self, Function.update_self, List.append_nil]
      exact List.perm_append_comm

theorem all_perm_append (hi : i < n) :
    (all n f).Perm (f i ++ all n (Function.update f i [])) := by
  have h := all_update (f := f) hi (f i)
  rwa [Function.update_eq_self] at h

theorem all_update_cons (hi : i < n) (a : α) :
    (all n (Function.update f i (a :: f i))).Perm (a :: all n f) :=
  (all_update hi _).trans ((all_perm_append hi).symm.cons a)

theorem all_update_erase [DecidableEq α] (hi : i < n) (ha : a ∈ f i) :
    (all n (Function.update f i ((f i).erase a))).Perm ((all n f).erase a) := by
  refine (all_update hi _).trans ?_
  rw [← List.erase_append_left _ ha]
  exact (all_perm_append hi).symm.erase a

/-- No element occurs twice if each one has its own list. -/
theorem nodup_all {key : α → ℕ} (hf : ∀ i, (f i).Nodup) (hk : ∀ i, ∀ a ∈ f i, key a = i) :
    (all n f).Nodup := by
  rw [all, List.nodup_flatMap]
  refine ⟨fun i _ => hf i, List.nodup_range.imp fun hij a ha hb => hij ?_⟩
  rw [← hk _ a ha, hk _ a hb]

end Buckets
