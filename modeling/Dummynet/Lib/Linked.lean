import Mathlib

/-!
# Lists linked through cells

A list of cells, each with a link to the next one. The function `next` reads the link of a cell, and is
`none` where the cell does not have one: then `some none` is the end of the list.

## Main definitions

* `Linked`: the list between a head and a tail.

## Main results

* `Linked.pop`: the head goes.
* `Linked.push`: a cell is linked behind the tail.
-/

variable {ι : Type*} {next next' : ι → Option (Option ι)} {head tail : Option ι} {l : List ι}
  {a : ι}

/-- The cells of `l` are linked in this order from `head` to `tail`. In an empty list the tail is not
used. -/
structure Linked (next : ι → Option (Option ι)) (head tail : Option ι) (l : List ι) : Prop where
  head : head = l.head?
  tail : l ≠ [] → tail = l.getLast?
  links : l.IsChain fun a b => next a = some (some b)
  last : ∀ b ∈ l.getLast?, next b = some none
  nodup : l.Nodup

namespace Linked

theorem nil (next : ι → Option (Option ι)) (tail : Option ι) : Linked next none tail [] :=
  ⟨rfl, fun h => absurd rfl h, .nil, fun b hb => absurd hb (by simp), List.nodup_nil⟩

theorem eq_nil (h : Linked next none tail l) : l = [] :=
  List.head?_eq_none_iff.1 h.head.symm

/-- Other cells may change. -/
theorem congr (h : Linked next head tail l) (hnext : ∀ b ∈ l, next' b = next b) :
    Linked next' head tail l where
  head := h.head
  tail := h.tail
  links := by
    refine h.links.imp_of_mem_imp fun b c hb _ hbc => ?_
    rwa [hnext b hb]
  last b hb := by
    rw [hnext b (List.mem_of_getLast? hb)]
    exact h.last b hb
  nodup := h.nodup

/-- A link leads to a cell of the list. -/
theorem mem_of_next {b : ι} (h : Linked next head tail l) (ha : a ∈ l)
    (hab : next a = some (some b)) : b ∈ l := by
  obtain ⟨l₁, l₂, rfl⟩ := List.append_of_mem ha
  cases l₂ with
  | nil =>
    have hlast := h.last a (by simp)
    rw [hab] at hlast
    exact absurd (Option.some.inj hlast) (by simp)
  | cons c l₂ =>
    have hchain := (List.isChain_append.1 h.links).2.1
    have hac := (List.isChain_cons_cons.1 hchain).1
    obtain rfl : b = c := Option.some.inj (Option.some.inj (hab.symm.trans hac))
    simp

/-- **The head goes.** Its link is the new head. -/
theorem pop (h : Linked next (some a) tail l) :
    ∃ l', l = a :: l' ∧ a ∉ l' ∧ next a = some l'.head? ∧ Linked next l'.head? tail l' := by
  cases l with
  | nil => exact absurd h.head (by simp)
  | cons b l' =>
    obtain rfl : a = b := Option.some.inj h.head
    obtain ⟨hnot, hnodup⟩ := List.nodup_cons.1 h.nodup
    refine ⟨l', rfl, hnot, ?_, rfl, fun hne => ?_, h.links.tail, fun b hb => h.last b ?_, hnodup⟩
    · cases l' with
      | nil => exact h.last a (by simp)
      | cons c l' => exact (List.isChain_cons_cons.1 h.links).1
    · rw [h.tail (List.cons_ne_nil _ _), List.getLast?_cons_of_ne_nil hne]
    · cases l' with
      | nil => exact absurd hb (by simp)
      | cons c l' => simpa using hb

/-- **A cell comes** behind the tail, whose link is written. -/
theorem push (h : Linked next head tail l) (ha : a ∉ l) (hend : next' a = some none)
    (htail : ∀ b ∈ l, tail = some b → next' b = some (some a))
    (hnext : ∀ b ∈ l, tail ≠ some b → next' b = next b) :
    Linked next' (head.or (some a)) (some a) (l ++ [a]) where
  head := by
    rw [h.head, List.head?_append]
    rfl
  tail _ := by simp
  links := by
    refine List.isChain_append.2 ⟨?_, .singleton a, ?_⟩
    · refine h.links.imp_of_mem_imp fun b c hb hc hbc => ?_
      rwa [hnext b hb]
      -- a cell with a link to another one is not the last one
      intro he
      have hlast := h.last b (by rw [← h.tail (List.ne_nil_of_mem hb), he]; rfl)
      rw [hbc] at hlast
      exact absurd (Option.some.inj hlast) (by simp)
    · intro b hb c hc
      obtain rfl : a = c := by simpa using hc
      have hmem := List.mem_of_getLast? hb
      exact htail b hmem ((h.tail (List.ne_nil_of_mem hmem)).trans hb)
  last b hb := by
    obtain rfl : a = b := by simpa using hb
    exact hend
  nodup := by
    refine List.nodup_append.2 ⟨h.nodup, List.nodup_singleton a, fun b hb c hc => ?_⟩
    obtain rfl := List.mem_singleton.1 hc
    exact fun he => ha (he ▸ hb)

end Linked
