import Mathlib

/-!
# Computations that record what they read

A computation reads a state at certain addresses. It yields its result together with the addresses
that it has read, the first one first, so that a bound on its accesses can be stated and proved
along its structure.

## Main definitions

* `Reads`: a computation that records its accesses.
* `Reads.Within`: all accesses lie in a set of addresses.

## Main results

* `Reads.within_pure`, `Reads.within_bind`, `Reads.within_read`, `Reads.within_ite`: the bound of a
  computation from the bounds of its parts.
-/

/-- A computation of `α` from a state in `σ`, with the addresses in `ι` that it reads. -/
def Reads (ι σ α : Type) : Type := σ → List ι × α

namespace Reads

variable {ι σ α β : Type} {P Q : ι → Prop} {s : σ}

/-- The addresses that are read. -/
def log (x : Reads ι σ α) (s : σ) : List ι := (x s).1

/-- The result. -/
def val (x : Reads ι σ α) (s : σ) : α := (x s).2

instance : Monad (Reads ι σ) where
  pure a := fun _ => ([], a)
  bind x f := fun s => ((x s).1 ++ (f (x s).2 s).1, (f (x s).2 s).2)

/-- The state. -/
def get : Reads ι σ σ := fun s => ([], s)

/-- Reads what `g` says, at the address `i`. Both may depend on the state. -/
def read (i : σ → ι) (g : σ → α) : Reads ι σ α := fun s => ([i s], g s)

/-- Accesses an address for no result. -/
def touch (i : σ → ι) : Reads ι σ Unit := read i fun _ => ()

@[simp]
theorem log_pure (a : α) : (pure a : Reads ι σ α).log s = [] := (rfl)

@[simp]
theorem val_pure (a : α) : (pure a : Reads ι σ α).val s = a := (rfl)

@[simp]
theorem log_bind (x : Reads ι σ α) (f : α → Reads ι σ β) :
    (x >>= f).log s = x.log s ++ (f (x.val s)).log s := (rfl)

@[simp]
theorem val_bind (x : Reads ι σ α) (f : α → Reads ι σ β) :
    (x >>= f).val s = (f (x.val s)).val s := (rfl)

@[simp]
theorem log_get : (get : Reads ι σ σ).log s = [] := (rfl)

@[simp]
theorem val_get : (get : Reads ι σ σ).val s = s := (rfl)

@[simp]
theorem log_read (i : σ → ι) (g : σ → α) : (read i g).log s = [i s] := (rfl)

@[simp]
theorem val_read (i : σ → ι) (g : σ → α) : (read i g).val s = g s := (rfl)

@[simp]
theorem log_touch (i : σ → ι) : (touch i).log s = [i s] := (rfl)

theorem val_ite (c : Prop) [Decidable c] (x y : Reads ι σ α) :
    (if c then x else y).val s = if c then x.val s else y.val s :=
  apply_ite (Reads.val · s) c x y

/-- All accesses from the state `s` are in `P`. -/
def Within (P : ι → Prop) (s : σ) (x : Reads ι σ α) : Prop := ∀ i ∈ x.log s, P i

@[simp]
theorem within_pure (a : α) : Within P s (pure a : Reads ι σ α) := by
  intro i hi
  simp at hi

@[simp]
theorem within_get : Within P s (get : Reads ι σ σ) := by
  intro i hi
  simp at hi

@[simp]
theorem within_read (i : σ → ι) (g : σ → α) : Within P s (read i g) ↔ P (i s) := by
  simp [Within]

@[simp]
theorem within_touch (i : σ → ι) : Within P s (touch i) ↔ P (i s) := by
  simp [Within]

@[simp]
theorem within_bind (x : Reads ι σ α) (f : α → Reads ι σ β) :
    Within P s (x >>= f) ↔ Within P s x ∧ Within P s (f (x.val s)) := by
  simp only [Within, log_bind, List.mem_append, or_imp, forall_and]

theorem within_ite (c : Prop) [Decidable c] (x y : Reads ι σ α) :
    Within P s (if c then x else y) ↔ (c → Within P s x) ∧ (¬ c → Within P s y) := by
  split <;> simp_all

/-- A bound can be weakened. -/
theorem Within.mono {x : Reads ι σ α} (h : Within P s x) (hPQ : ∀ i, P i → Q i) :
    Within Q s x :=
  fun i hi => hPQ i (h i hi)

end Reads
