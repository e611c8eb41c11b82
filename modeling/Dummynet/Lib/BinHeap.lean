import Mathlib

/-!
# Binary heaps in an array

A binary heap keeps its entries in the first `n` places of an array, the children of place `i`
at `2i + 1` and `2i + 2`. Both repairs of the heap order move one place along a path: towards
the root, where the entry of the place may be too small (`UpTo`), or towards the leaves, where
the place is a hole that the smallest child fills (`Hole`). The lemmas here give one step of
each repair and its end, for the order of the keys, for the set of the entries, and for a table
of positions that names the place of every object.

Nothing here fixes how the array is stored: keys are read through `k : ℕ → α`, entries through
`p : ℕ → β` and objects through `obj : ℕ → ι`.

## Main definitions

* `BinHeap.parent`, `BinHeap.left`: the shape of the tree.
* `BinHeap.Ordered`: no key is smaller than the key of its parent.
* `BinHeap.UpTo`, `BinHeap.Hole`: the heap order up to one place.
* `BinHeap.Content`, `BinHeap.HoleContent`: the entries, all of them or without one place.
* `BinHeap.Indexed`: the table of positions is right, except for one place.

## Main results

* `BinHeap.Ordered.root_le`: the root is a least entry.
* `BinHeap.UpTo.swap`, `BinHeap.UpTo.ordered`: one step towards the root, and the end.
* `BinHeap.Hole.down`, `BinHeap.Hole.fill`: one step towards the leaves, and the end.
-/

namespace BinHeap

/-- The parent of a place; the root is its own parent. -/
def parent (i : ℕ) : ℕ := (i - 1) / 2

/-- The left child of a place. -/
def left (i : ℕ) : ℕ := i + i + 1

theorem parent_lt {i : ℕ} (hi : 0 < i) : parent i < i := by unfold parent; omega

theorem parent_eq_iff {i f : ℕ} (hi : 0 < i) : parent i = f ↔ i = left f ∨ i = left f + 1 := by
  unfold parent left; omega

theorem lt_left (f : ℕ) : f < left f := by unfold left; omega

/-! ### The order of the keys -/

section Order

variable {α : Type*} [LinearOrder α] {k : ℕ → α} {n s f : ℕ}

/-- The first `n` keys are in heap order. -/
def Ordered (k : ℕ → α) (n : ℕ) : Prop := ∀ i, 0 < i → i < n → k (parent i) ≤ k i

/-- The root of a heap is a least entry. -/
theorem Ordered.root_le (h : Ordered k n) : ∀ i, i < n → k 0 ≤ k i := by
  intro i
  induction i using Nat.strongRecOn with
  | ind i ih =>
    intro hi
    rcases Nat.eq_zero_or_pos i with rfl | hpos
    · exact le_rfl
    · have hp := parent_lt hpos
      exact (ih (parent i) hp (by omega)).trans (h i hpos hi)

/-- Heap order except that the entry at `s` may be smaller than its parent. -/
structure UpTo (k : ℕ → α) (n s : ℕ) : Prop where
  rest : ∀ i, 0 < i → i < n → i ≠ s → k (parent i) ≤ k i
  skip : 0 < s → ∀ i, 0 < i → i < n → parent i = s → k (parent s) ≤ k i

/-- The new last entry is the only one that may be out of order. -/
theorem Ordered.upTo (h : Ordered k n) : UpTo k (n + 1) n where
  rest i hi hin hne := h i hi (by omega)
  skip _ i hi hin hp := by
    have := parent_lt hi
    omega

/-- **One step towards the root**: exchange the entry with its parent. -/
theorem UpTo.swap (h : UpTo k n s) (hs : 0 < s) (hsn : s < n) (hle : k s ≤ k (parent s)) :
    UpTo (k ∘ Equiv.swap s (parent s)) n (parent s) := by
  have hps := parent_lt hs
  have hself : (Equiv.swap s (parent s)) s = parent s := Equiv.swap_apply_left _ _
  have hpar : (Equiv.swap s (parent s)) (parent s) = s := Equiv.swap_apply_right _ _
  have hother : ∀ j, j ≠ s → j ≠ parent s → (Equiv.swap s (parent s)) j = j :=
    fun j h1 h2 => Equiv.swap_apply_of_ne_of_ne h1 h2
  constructor
  · intro i hi hin hne
    simp only [Function.comp_apply]
    by_cases his : i = s
    · rw [his, hself, hpar]
      exact hle
    · rw [hother i his hne]
      by_cases hpi : parent i = s
      · rw [hpi, hself]
        exact h.skip hs i hi hin hpi
      · by_cases hpp : parent i = parent s
        · rw [hpp, hpar]
          exact hle.trans (hpp ▸ h.rest i hi hin his)
        · rw [hother _ hpi hpp]
          exact h.rest i hi hin his
  · intro hp0 i hi hin hpi
    have hgrand := parent_lt hp0
    simp only [Function.comp_apply]
    rw [hother (parent (parent s)) (by omega) (by omega)]
    have hup := h.rest (parent s) hp0 (by omega) (by omega)
    by_cases his : i = s
    · rw [his, hself]
      exact hup
    · rw [hother i his (by have := parent_lt hi; omega)]
      exact hup.trans (hpi ▸ h.rest i hi hin his)

/-- At the root, or below a parent that is not larger, the repair is over. -/
theorem UpTo.ordered (h : UpTo k n s) (hstop : s = 0 ∨ k (parent s) ≤ k s) : Ordered k n := by
  intro i hi hin
  by_cases his : i = s
  · subst his
    exact hstop.resolve_left (by omega)
  · exact h.rest i hi hin his

/-- Heap order except at the place `f`, whose entry is gone. -/
structure Hole (k : ℕ → α) (n f : ℕ) : Prop where
  rest : ∀ i, 0 < i → i < n → i ≠ f → parent i ≠ f → k (parent i) ≤ k i
  skip : 0 < f → ∀ i, 0 < i → i < n → parent i = f → k (parent f) ≤ k i

theorem Ordered.hole (h : Ordered k n) (hf : f < n) : Hole k n f where
  rest i hi hin _ _ := h i hi hin
  skip hf0 i hi hin hp := (h f hf0 hf).trans (hp ▸ h i hi hin)

/-- **One step towards the leaves**: the smallest child moves into the hole. -/
theorem Hole.down {c : ℕ} (h : Hole k n f) (hc0 : 0 < c) (hcn : c < n) (hpc : parent c = f)
    (hmin : ∀ i, 0 < i → i < n → parent i = f → k c ≤ k i) :
    Hole (Function.update k f (k c)) n c := by
  have hfc : f < c := hpc ▸ parent_lt hc0
  constructor
  · intro i hi hin hic hpi
    by_cases hif : i = f
    · subst hif
      have hpf := parent_lt hi
      rw [Function.update_self, Function.update_of_ne (by omega)]
      exact h.skip hi c hc0 hcn hpc
    · rw [Function.update_of_ne hif]
      by_cases hpf : parent i = f
      · rw [hpf, Function.update_self]
        exact hmin i hi hin hpf
      · rw [Function.update_of_ne hpf]
        exact h.rest i hi hin hif hpf
  · intro _ i hi hin hpi
    have := parent_lt hi
    rw [hpc, Function.update_self, Function.update_of_ne (by omega), ← hpi]
    exact h.rest i hi hin (by omega) (by omega)

/-- **Filling the hole**: once the hole has no child, the last entry goes there, and it is the
only one that may be out of order. -/
theorem Hole.fill {m : ℕ} (h : Hole k (m + 1) f) (hleaf : m < left f) (x : α) :
    UpTo (Function.update k f x) m f := by
  have hno : ∀ i, 0 < i → i < m → parent i ≠ f := by
    intro i hi him hp
    rcases (parent_eq_iff hi).1 hp with h' | h' <;> omega
  constructor
  · intro i hi him hne
    rw [Function.update_of_ne hne, Function.update_of_ne (hno i hi him)]
    exact h.rest i hi (by omega) hne (hno i hi him)
  · intro _ i hi him hp
    exact absurd hp (hno i hi him)

/-- A hole in the last place leaves a heap. -/
theorem Hole.ordered {m : ℕ} (h : Hole k (m + 1) m) : Ordered k m := by
  intro i hi him
  have := parent_lt hi
  exact h.rest i hi (by omega) (by omega) (by omega)

end Order

/-! ### The entries -/

section Content

variable {β : Type*} {p : ℕ → β} {n s f : ℕ}

/-- `e` is one of the first `n` entries. -/
def Content (p : ℕ → β) (n : ℕ) (e : β) : Prop := ∃ i, i < n ∧ p i = e

/-- `e` is one of the first `n` entries other than the one at `f`. -/
def HoleContent (p : ℕ → β) (n f : ℕ) (e : β) : Prop := ∃ i, i < n ∧ i ≠ f ∧ p i = e

theorem content_swap (hs : s < n) (hf : f < n) (e : β) :
    Content (p ∘ Equiv.swap s f) n e ↔ Content p n e := by
  have hlt : ∀ i, i < n → (Equiv.swap s f) i < n := by
    intro i hi
    rw [Equiv.swap_apply_def]
    split_ifs <;> assumption
  constructor
  · rintro ⟨i, hi, he⟩
    exact ⟨_, hlt i hi, he⟩
  · rintro ⟨i, hi, he⟩
    exact ⟨_, hlt i hi, by simpa using he⟩

theorem content_succ_update (x e : β) :
    Content (Function.update p n x) (n + 1) e ↔ e = x ∨ Content p n e := by
  constructor
  · rintro ⟨i, hi, he⟩
    by_cases hin : i = n
    · subst hin
      exact .inl (by simpa using he.symm)
    · rw [Function.update_of_ne hin] at he
      exact .inr ⟨i, by omega, he⟩
  · rintro (rfl | ⟨i, hi, he⟩)
    · exact ⟨n, by omega, Function.update_self ..⟩
    · exact ⟨i, by omega, by rwa [Function.update_of_ne (by omega)]⟩

theorem holeContent_down {c : ℕ} (hf : f < n) (hcn : c < n) (hfc : f ≠ c) (e : β) :
    HoleContent (Function.update p f (p c)) n c e ↔ HoleContent p n f e := by
  constructor
  · rintro ⟨i, hi, hic, he⟩
    by_cases hif : i = f
    · subst hif
      exact ⟨c, hcn, Ne.symm hfc, by simpa using he⟩
    · exact ⟨i, hi, hif, by rwa [Function.update_of_ne hif] at he⟩
  · rintro ⟨i, hi, hif, he⟩
    by_cases hic : i = c
    · subst hic
      exact ⟨f, hf, hfc, by simpa using he⟩
    · exact ⟨i, hi, hic, by rwa [Function.update_of_ne hif]⟩

theorem content_fill {m : ℕ} (hf : f < m) (e : β) :
    Content (Function.update p f (p m)) m e ↔ HoleContent p (m + 1) f e := by
  constructor
  · rintro ⟨i, hi, he⟩
    by_cases hif : i = f
    · subst hif
      exact ⟨m, by omega, by omega, by simpa using he⟩
    · exact ⟨i, by omega, hif, by rwa [Function.update_of_ne hif] at he⟩
  · rintro ⟨i, hi, hif, he⟩
    by_cases him : i = m
    · subst him
      exact ⟨f, hf, by simpa using he⟩
    · exact ⟨i, by omega, by rwa [Function.update_of_ne hif]⟩

theorem content_of_last {m : ℕ} (e : β) : Content p m e ↔ HoleContent p (m + 1) m e :=
  ⟨fun ⟨i, hi, he⟩ => ⟨i, by omega, by omega, he⟩,
    fun ⟨i, hi, hne, he⟩ => ⟨i, by omega, he⟩⟩

end Content

/-! ### The table of positions -/

section Index

variable {ι : Type*} {obj : ℕ → ι} {pos : ι → ℤ} {n s f : ℕ}

/-- The objects at the first `n` places other than `f` are different, and the table gives the
place of each of them. -/
structure Indexed (obj : ℕ → ι) (pos : ι → ℤ) (n f : ℕ) : Prop where
  inj : ∀ i j, i < n → j < n → i ≠ f → j ≠ f → obj i = obj j → i = j
  index : ∀ i, i < n → i ≠ f → pos (obj i) = i

theorem Indexed.mono (h : Indexed obj pos n n) (f : ℕ) : Indexed obj pos n f where
  inj i j hi hj _ _ := h.inj i j hi hj (by omega) (by omega)
  index i hi _ := h.index i hi (by omega)

theorem Indexed.of_last {m : ℕ} (h : Indexed obj pos (m + 1) m) : Indexed obj pos m m where
  inj i j hi hj _ _ := h.inj i j (by omega) (by omega) (by omega) (by omega)
  index i hi _ := h.index i (by omega) (by omega)

/-- A new object goes behind the last one. -/
theorem Indexed.push (h : Indexed obj pos n n) {o : ι} :
    Indexed (Function.update obj n o) pos (n + 1) n where
  inj i j hi hj hin hjn he := by
    rw [Function.update_of_ne hin, Function.update_of_ne hjn] at he
    exact h.inj i j (by omega) (by omega) hin hjn he
  index i hi hin := by
    rw [Function.update_of_ne hin]
    exact h.index i (by omega) hin

/-- The last object goes into the hole. -/
theorem Indexed.fill {m : ℕ} (h : Indexed obj pos (m + 1) f) (hf : f < m) :
    Indexed (Function.update obj f (obj m)) pos m f ∧
      ∀ i, i < m → i ≠ f → Function.update obj f (obj m) i ≠ obj m := by
  refine ⟨⟨fun i j hi hj hif hjf he => ?_, fun i hi hif => ?_⟩, fun i hi hif he => ?_⟩
  · rw [Function.update_of_ne hif, Function.update_of_ne hjf] at he
    exact h.inj i j (by omega) (by omega) hif hjf he
  · rw [Function.update_of_ne hif]
    exact h.index i (by omega) hif
  · rw [Function.update_of_ne hif] at he
    have := h.inj i m (by omega) (by omega) hif (by omega) he
    omega

variable [DecidableEq ι]

/-- Writing the place of the one object whose place was not known. -/
theorem Indexed.place (h : Indexed obj pos n s) (hnew : ∀ i, i < n → i ≠ s → obj i ≠ obj s) :
    Indexed obj (Function.update pos (obj s) s) n n where
  inj i j hi hj _ _ he := by
    by_cases his : i = s <;> by_cases hjs : j = s
    · rw [his, hjs]
    · exact absurd (his ▸ he.symm) (hnew j hj hjs)
    · exact absurd (hjs ▸ he) (hnew i hi his)
    · exact h.inj i j hi hj his hjs he
  index i hi _ := by
    by_cases his : i = s
    · rw [his, Function.update_self]
    · rw [Function.update_of_ne (hnew i hi his), h.index i hi his]

theorem Indexed.down {c : ℕ} (h : Indexed obj pos n f) (hcn : c < n) (hfc : f ≠ c) :
    Indexed (Function.update obj f (obj c)) (Function.update pos (obj c) f) n c := by
  have hne : ∀ i, i < n → i ≠ f → i ≠ c → obj i ≠ obj c := fun i hi hif hic he =>
    hic (h.inj i c hi hcn hif hfc.symm he)
  constructor
  · intro i j hi hj hic hjc he
    by_cases hif : i = f <;> by_cases hjf : j = f
    · rw [hif, hjf]
    · rw [hif, Function.update_self, Function.update_of_ne hjf] at he
      exact absurd he.symm (hne j hj hjf hjc)
    · rw [hjf, Function.update_self, Function.update_of_ne hif] at he
      exact absurd he (hne i hi hif hic)
    · rw [Function.update_of_ne hif, Function.update_of_ne hjf] at he
      exact h.inj i j hi hj hif hjf he
  · intro i hi hic
    by_cases hif : i = f
    · rw [hif, Function.update_self, Function.update_self]
    · rw [Function.update_of_ne hif, Function.update_of_ne (hne i hi hif hic)]
      exact h.index i hi hif

/-- The entry at `s` goes to place `f`, and only the table entry of the object that comes to
`s` is written. -/
theorem Indexed.swap (h : Indexed obj pos n s) (hf : f < n) (hsf : s ≠ f) :
    Indexed (obj ∘ Equiv.swap s f) (Function.update pos ((obj ∘ Equiv.swap s f) s) s) n f := by
  have hself : (Equiv.swap s f) s = f := Equiv.swap_apply_left _ _
  have hother : ∀ j, j ≠ s → j ≠ f → (Equiv.swap s f) j = j :=
    fun j h1 h2 => Equiv.swap_apply_of_ne_of_ne h1 h2
  constructor
  · intro i j hi hj hif hjf he
    simp only [Function.comp_apply] at he
    by_cases his : i = s <;> by_cases hjs : j = s
    · rw [his, hjs]
    · rw [his, hself, hother j hjs hjf] at he
      exact absurd (h.inj f j hf hj hsf.symm hjs he).symm hjf
    · rw [hjs, hself, hother i his hif] at he
      exact absurd (h.inj i f hi hf his hsf.symm he) hif
    · rw [hother i his hif, hother j hjs hjf] at he
      exact h.inj i j hi hj his hjs he
  · intro i hi hif
    simp only [Function.comp_apply, hself]
    by_cases his : i = s
    · rw [his, hself, Function.update_self]
    · rw [hother i his hif, Function.update_of_ne, h.index i hi his]
      exact fun he => hif (h.inj i f hi hf his hsf.symm he)

end Index

end BinHeap
