import Mathlib

/-!
# Circular linked lists

A singly linked list whose last element points to its first one, with pointers to both. The links
are a function on the elements; a null pointer is `none`.

## Main definitions

* `Ring.Seg`: the elements of a list are linked one after the other.
* `Ring.IsRing`: a list is the content of a ring.
* `Ring.prev`: the element before another one.

## Main results

* `Ring.IsRing.push`, `Ring.IsRing.pop`, `Ring.IsRing.rotate`, `Ring.IsRing.splice`: a new last
  element, removal of the first one, the first one becomes the last one, removal in the middle.
* `Ring.IsRing.remove`: removal of any element, given the one before it.
-/

namespace Ring

variable {α : Type*} {next next' : α → Option α} {head tail p e : Option α} {l : List α}
  {a b : α}

/-- Starting at `p`, the links go through the elements of the list and end at `e`. -/
def Seg (next : α → Option α) : Option α → List α → Option α → Prop
  | p, [], e => p = e
  | p, a :: l, e => p = some a ∧ Seg next (next a) l e

theorem seg_append {l' : List α} :
    Seg next p (l ++ l') e ↔ ∃ m, Seg next p l m ∧ Seg next m l' e := by
  induction l generalizing p with
  | nil => simp [Seg]
  | cons a l ih => simp [Seg, ih, and_assoc]

/-- Links outside the list do not matter. -/
theorem Seg.congr (h : Seg next p l e) (hl : ∀ x ∈ l, next' x = next x) : Seg next' p l e := by
  induction l generalizing p with
  | nil => exact h
  | cons a l ih =>
    refine ⟨h.1, ?_⟩
    rw [hl a List.mem_cons_self]
    exact ih h.2 fun x hx => hl x (List.mem_cons_of_mem a hx)

/-- Two elements of a list are in one order or the other. -/
theorem pair_sublist (hab : a ≠ b) (ha : a ∈ l) (hb : b ∈ l) :
    [a, b].Sublist l ∨ [b, a].Sublist l := by
  induction l with
  | nil => exact absurd ha List.not_mem_nil
  | cons c l ih =>
    rcases List.mem_cons.1 ha with rfl | ha'
    · exact .inl ((List.singleton_sublist.2 ((List.mem_cons.1 hb).resolve_left hab.symm)).cons_cons a)
    · rcases List.mem_cons.1 hb with rfl | hb'
      · exact .inr ((List.singleton_sublist.2 ha').cons_cons b)
      · exact (ih ha' hb').imp (fun h => h.cons c) fun h => h.cons c

/-- When the first element becomes the last one, two elements change their order if it is one of
them. -/
theorem rotate_pair (hab : a ≠ b) {c : α} (hnd : (c :: l).Nodup) (h : [a, b].Sublist (c :: l)) :
    c = a ∧ [b, a].Sublist (l ++ [c]) ∨ c ≠ a ∧ c ≠ b ∧ [a, b].Sublist l := by
  obtain ⟨hc, -⟩ := List.nodup_cons.1 hnd
  by_cases hca : c = a
  · subst hca
    exact .inl ⟨rfl, (List.cons_sublist_cons.1 h).append_right [c]⟩
  · have h' : [a, b].Sublist l := h.of_cons_of_ne (Ne.symm hca)
    refine .inr ⟨hca, ?_, h'⟩
    rintro rfl
    exact hc (h'.subset (by simp))

/-- The pointers `head` and `tail` and the links form a ring with the content `l`. -/
structure IsRing (next : α → Option α) (head tail : Option α) (l : List α) : Prop where
  nodup : l.Nodup
  head_eq : head = l.head?
  tail_eq : tail = l.getLast?
  loop : Seg next head l head

/-- The element before the one that follows `d`, in a ring that ends with `t`. -/
def prev (t : α) (d : List α) : α := d.getLast?.getD t

@[simp]
theorem prev_nil (t : α) : prev t [] = t := rfl

@[simp]
theorem prev_concat (t a : α) (d : List α) : prev t (d ++ [a]) = a := by
  simp [prev]

namespace IsRing

theorem nil (next : α → Option α) : IsRing next none none [] := ⟨.nil, rfl, rfl, rfl⟩

theorem head_none (h : IsRing next none tail l) : l = [] :=
  List.head?_eq_none_iff.1 h.head_eq.symm

theorem head_some (h : IsRing next (some a) tail l) : ∃ l', l = a :: l' :=
  List.head?_eq_some_iff.1 h.head_eq.symm

/-- The last element points to the first one. -/
theorem next_last {l' : List α} (h : IsRing next head tail (l' ++ [a])) : next a = head := by
  obtain ⟨m, -, -, hm⟩ := seg_append.1 h.loop
  exact hm

/-- The ring has one element if and only if its ends are equal. -/
theorem head_eq_tail {l' : List α} (h : IsRing next head tail (a :: l')) :
    head = tail ↔ l' = [] := by
  rw [h.head_eq, h.tail_eq]
  constructor
  · intro he
    rcases List.eq_nil_or_concat' l' with rfl | ⟨l₁, b, rfl⟩
    · rfl
    · have hab : a = b := by simpa [List.getLast?_cons] using he
      have := h.nodup
      simp [hab] at this
  · rintro rfl
    rfl

theorem exists_last {l' : List α} (h : IsRing next head tail (a :: l')) :
    ∃ l₁ b, a :: l' = l₁ ++ [b] ∧ tail = some b := by
  rcases List.eq_nil_or_concat' (a :: l') with h0 | ⟨l₁, b, hl⟩
  · exact absurd h0 (List.cons_ne_nil a l')
  · refine ⟨l₁, b, hl, ?_⟩
    rw [h.tail_eq, hl, List.getLast?_concat]

/-- The first element becomes the last one. -/
theorem rotate {l' : List α} (h : IsRing next head tail (a :: l')) :
    ∃ b, tail = some b ∧ IsRing next (next a) (next b) (l' ++ [a]) := by
  obtain ⟨l₁, b, hl, htail⟩ := h.exists_last
  have hb : next b = some a := by
    rw [(hl ▸ h : IsRing next head tail (l₁ ++ [b])).next_last, h.head_eq]
    rfl
  have hloop := h.loop.2
  rw [h.loop.1] at hloop
  refine ⟨b, htail, (@List.nodup_append_comm α [a] l').1 h.nodup, ?_, by simp [hb], ?_⟩
  · rcases l' with _ | ⟨c, l'⟩
    · exact hloop
    · exact hloop.1
  · exact seg_append.2 ⟨some a, hloop, rfl, rfl⟩

/-- Links outside the ring do not matter. -/
theorem congr (h : IsRing next head tail l) (hl : ∀ x ∈ l, next' x = next x) :
    IsRing next' head tail l :=
  ⟨h.nodup, h.head_eq, h.tail_eq, h.loop.congr hl⟩

/-- A ring can be entered anywhere. -/
theorem rotate_append {l₁ l₂ : List α} (h : IsRing next head tail (l₁ ++ l₂)) :
    IsRing next (l₂ ++ l₁).head? (l₂ ++ l₁).getLast? (l₂ ++ l₁) := by
  refine ⟨List.nodup_append_comm.1 h.nodup, rfl, rfl, ?_⟩
  obtain ⟨m, h₁, h₂⟩ := seg_append.1 h.loop
  have hstart : ∀ {l : List α} {p e : Option α}, Seg next p l e → l ≠ [] → p = l.head? := by
    intro l p e hl hne
    cases l with
    | nil => exact absurd rfl hne
    | cons a l => exact hl.1
  rcases eq_or_ne l₂ [] with rfl | hl₂
  · have hm : m = head := h₂
    have hhead : head = l₁.head? := by rw [h.head_eq, List.append_nil]
    rw [List.nil_append, ← hhead, ← hm]
    rwa [← hm] at h₁
  · have hm := hstart h₂ hl₂
    have hhead : (l₂ ++ l₁).head? = m := by
      rw [hm]
      cases l₂ with
      | nil => exact absurd rfl hl₂
      | cons => rfl
    rw [hhead]
    exact seg_append.2 ⟨head, h₂, h₁⟩

theorem tail_mem {t : α} (h : IsRing next head (some t) l) : t ∈ l :=
  List.mem_of_getLast? h.tail_eq.symm

/-- An element is the last one if and only if nothing follows it. -/
theorem eq_tail_iff {t : α} {d r : List α} (h : IsRing next head (some t) (d ++ a :: r)) :
    a = t ↔ r = [] := by
  have htail := h.tail_eq
  constructor
  · rintro rfl
    by_contra hr
    obtain ⟨r', b, rfl⟩ := (List.eq_nil_or_concat' r).resolve_left hr
    have hab : a = b := by simpa [List.getLast?_append, List.getLast?_cons] using htail
    have := (List.nodup_append'.1 h.nodup).2.1
    exact (List.nodup_cons.1 this).1 (by simp [hab])
  · rintro rfl
    simpa using htail.symm

/-- The element before another one points to it. -/
theorem next_prev {t : α} {d r : List α} (h : IsRing next head (some t) (d ++ a :: r)) :
    next (prev t d) = some a := by
  obtain ⟨m, h₁, rfl, -⟩ := seg_append.1 h.loop
  rcases List.eq_nil_or_concat' d with rfl | ⟨d', b, rfl⟩
  · obtain ⟨l₁, c, hl, hc⟩ := h.exists_last
    obtain rfl := Option.some.inj hc
    have hlast := (hl ▸ h : IsRing next head (some t) (l₁ ++ [t])).next_last
    rw [prev_nil, hlast, h.head_eq]
    rfl
  · obtain ⟨n, -, hn⟩ := seg_append.1 h₁
    rw [prev_concat]
    exact hn.2

/-- The links stay in the ring. -/
theorem next_mem (h : IsRing next head tail l) (ha : a ∈ l) : ∃ b, next a = some b ∧ b ∈ l := by
  obtain ⟨d, r, rfl⟩ := List.append_of_mem ha
  obtain ⟨m, -, -, hr⟩ := seg_append.1 h.loop
  rcases r with _ | ⟨b, r⟩
  · have hhead : next a = head := hr
    rw [hhead, h.head_eq]
    rcases d with _ | ⟨b, d⟩
    · exact ⟨a, rfl, by simp⟩
    · exact ⟨b, rfl, by simp⟩
  · exact ⟨b, hr.1, by simp⟩

section Update

variable [DecidableEq α]

/-- A first element. -/
theorem single (next : α → Option α) (a : α) :
    IsRing (Function.update next a (some a)) (some a) (some a) [a] :=
  ⟨List.nodup_singleton a, rfl, rfl, rfl, by simp [Seg]⟩

/-- A new last element. -/
theorem push {l' : List α} (h : IsRing next head tail (a :: l')) (hb : b ∉ a :: l') :
    ∃ c, tail = some c ∧ IsRing (Function.update (Function.update next c (some b)) b head) head
      (some b) (a :: l' ++ [b]) := by
  obtain ⟨l₁, c, hl, htail⟩ := h.exists_last
  rw [hl] at h hb ⊢
  have hcb : c ≠ b := fun he => hb (by simp [he])
  have hc : c ∉ l₁ := (List.nodup_cons.1 (List.nodup_append_comm.1 h.nodup)).1
  refine ⟨c, htail, List.nodup_append_comm.1 (List.nodup_cons.2 ⟨hb, h.nodup⟩), ?_, by simp, ?_⟩
  · have := h.head_eq
    rcases l₁ with _ | ⟨d, l₁⟩ <;> simpa using this
  · obtain ⟨m, h₁, rfl, hc'⟩ := seg_append.1 h.loop
    refine seg_append.2 ⟨some b, seg_append.2 ⟨some c, h₁.congr fun x hx => ?_, rfl, ?_⟩, rfl, ?_⟩
    · have hxb : x ≠ b := fun he => hb (by simp [← he, hx])
      have hxc : x ≠ c := ne_of_mem_of_not_mem hx hc
      simp [hxb, hxc]
    · simp [hcb, Seg]
    · simp [Seg]

/-- The first of several elements goes. -/
theorem pop {l' : List α} (h : IsRing next head tail (a :: l')) (hl' : l' ≠ []) :
    ∃ b, tail = some b ∧ IsRing (Function.update next b (next a)) (next a) tail l' := by
  obtain ⟨l₁, b, rfl⟩ := (List.eq_nil_or_concat' l').resolve_left hl'
  have hnd := List.nodup_cons.1 h.nodup
  have hb : b ∉ l₁ := (List.nodup_cons.1 (List.nodup_append_comm.1 hnd.2)).1
  obtain ⟨m, h₁, rfl, -⟩ := seg_append.1 h.loop.2
  refine ⟨b, by rw [h.tail_eq]; simp [List.getLast?_cons], hnd.2, ?_, ?_, ?_⟩
  · rcases l₁ with _ | ⟨c, l₁⟩
    · exact h₁
    · exact h₁.1
  · rw [h.tail_eq]
    simp [List.getLast?_cons]
  · refine seg_append.2 ⟨some b, h₁.congr fun x hx => ?_, rfl, by simp [Seg]⟩
    exact Function.update_of_ne (ne_of_mem_of_not_mem hx hb) _ _

/-- An element behind another one goes. -/
theorem splice {l₁ l₂ : List α} (h : IsRing next head tail (l₁ ++ a :: b :: l₂)) :
    next a = some b ∧ IsRing (Function.update next a (next b)) head
      (if some b = tail then some a else tail) (l₁ ++ a :: l₂) := by
  obtain ⟨m, h₁, rfl, hab, h₂⟩ := seg_append.1 h.loop
  have hnd := h.nodup
  rw [List.nodup_append'] at hnd
  obtain ⟨hn₁, hn₂, hdis⟩ := hnd
  have ha : a ∉ l₁ := fun ha => hdis ha List.mem_cons_self
  have hbl : b ∉ l₂ := (List.nodup_cons.1 (List.nodup_cons.1 hn₂).2).1
  have hal : a ∉ l₂ := fun ha => (List.nodup_cons.1 hn₂).1 (List.mem_cons_of_mem b ha)
  refine ⟨hab, h.nodup.sublist ?_, ?_, ?_, ?_⟩
  · exact List.Sublist.append_left ((List.sublist_cons_self b l₂).cons_cons a) l₁
  · rw [h.head_eq]
    rcases l₁ with _ | ⟨d, l₁⟩ <;> rfl
  · rw [h.tail_eq]
    rcases List.eq_nil_or_concat' l₂ with rfl | ⟨l₃, c, rfl⟩
    · simp
    · have hbc : b ≠ c := fun he => hbl (by simp [he])
      simp [List.getLast?_append, List.getLast?_cons, hbc]
  · refine seg_append.2 ⟨some a, h₁.congr fun x hx => ?_, rfl, ?_⟩
    · exact Function.update_of_ne (ne_of_mem_of_not_mem hx ha) _ _
    · rw [Function.update_self]
      exact h₂.congr fun x hx => Function.update_of_ne (ne_of_mem_of_not_mem hx hal) _ _

/-- An element goes, given the one before it. The ring becomes empty if the element follows
itself. -/
theorem remove {t : α} {d r : List α} (h : IsRing next head (some t) (d ++ a :: r)) :
    IsRing (if prev t d = a then next else Function.update next (prev t d) (next a))
      (d ++ r).head?
      (if a = t then (if prev t d = a then none else some (prev t d)) else some t) (d ++ r) := by
  rcases List.eq_nil_or_concat' d with rfl | ⟨d', b, rfl⟩
  · obtain ⟨l₁, c, hl, hc⟩ := h.exists_last
    obtain rfl := Option.some.inj hc
    rcases eq_or_ne r [] with rfl | hr
    · obtain rfl : a = t := by simpa using congrArg List.getLast? hl
      simp only [prev_nil, if_true, List.append_nil, List.head?_nil]
      exact .nil _
    · have hat : a ≠ t := by
        rintro rfl
        obtain ⟨l₃, b, rfl⟩ := (List.eq_nil_or_concat' r).resolve_left hr
        have hb : b = a := by
          have := congrArg List.getLast? hl
          simpa [List.getLast?_cons] using this
        exact (List.nodup_cons.1 h.nodup).1 (by simp [hb])
      obtain ⟨b, hb, hring⟩ := h.pop hr
      obtain rfl := Option.some.inj hb
      rw [prev_nil, if_neg (Ne.symm hat), if_neg hat, List.nil_append, ← hring.head_eq]
      exact hring
  · rw [List.append_assoc, List.singleton_append] at h
    have hba : b ≠ a := by
      rintro rfl
      have := (List.nodup_append'.1 h.nodup).2.1
      exact (List.nodup_cons.1 this).1 List.mem_cons_self
    obtain ⟨-, hring⟩ := h.splice
    rw [prev_concat, if_neg hba, if_neg hba, List.append_assoc, List.singleton_append,
      ← hring.head_eq]
    simpa using hring

end Update

end IsRing

end Ring
