import Mathlib

/-!
# Filling a buffer

Objects of different lengths are written into a buffer one behind the other. What does not fit is
left out. Some objects end the whole work when they do not fit, others only a part of it, and then
smaller objects may follow.

## Main definitions

* `Filling.Step`: writes some objects, and tells whether the work ends.
* `Filling.Step.andThen`, `Filling.Step.ignore`, `Filling.Step.scan`: how steps are put together.
* `Filling.Writes`: a step writes a list of objects as far as they fit.

## Main results

* `Filling.Writes.andThen`, `Filling.Writes.ignore`, `Filling.Writes.scan`: the rules for the steps.
-/

namespace Filling

variable {α β : Type}

/-- A step adds to what was written, and tells whether the work ends here. -/
abbrev Step (α : Type) := List α → Bool × List α

namespace Step

/-- Nothing is written. -/
def skip : Step α := fun out => (false, out)

/-- The second step comes unless the first one ends the work. -/
def andThen (f g : Step α) : Step α := fun out => if (f out).1 then f out else g (f out).2

/-- The work goes on, whatever the step says. -/
def ignore (f : Step α) : Step α := fun out => (false, (f out).2)

/-- One step for each element of a list. -/
def scan (f : β → Step α) : List β → Step α
  | [] => skip
  | b :: bs => (f b).andThen (scan f bs)

end Step

/-- The length of some objects. -/
def size (len : α → ℕ) (l : List α) : ℕ := (l.map len).sum

variable {cap : ℕ} {len : α → ℕ} {Ok Ends : α → Prop} {out os os' : List α}

@[simp] theorem size_nil : size len ([] : List α) = 0 := rfl

@[simp] theorem size_cons (x : α) (l : List α) : size len (x :: l) = len x + size len l := by
  simp [size]

@[simp] theorem size_append (l l' : List α) : size len (l ++ l') = size len l + size len l' := by
  simp [size]

/-- The result of a step that is to write `os` behind `out`: everything is there, or something is
missing. What comes behind the gap is in `more`. -/
inductive Outcome (cap : ℕ) (len : α → ℕ) (Ok Ends : α → Prop) (out os : List α) :
    Bool × List α → Prop
  | full : (∀ x ∈ os, Ok x) → size len (out ++ os) ≤ cap → Outcome cap len Ok Ends out os
      (false, out ++ os)
  | gap {pre : List α} {x : α} {post more : List α} {b : Bool} : os = pre ++ x :: post →
      ¬ (Ok x ∧ size len (out ++ pre) + len x ≤ cap) → size len (out ++ pre ++ more) ≤ cap →
      (Ends x → b = true ∧ more = []) → Outcome cap len Ok Ends out os (b, out ++ pre ++ more)

/-- A step writes `os`, as far as it fits. An object that is not `Ok` cannot be written, and one
that `Ends` the work has nothing behind it when it is missing. -/
def Writes (cap : ℕ) (len : α → ℕ) (Ok Ends : α → Prop) (f : Step α) (os : List α) : Prop :=
  ∀ out, size len out ≤ cap → Outcome cap len Ok Ends out os (f out)

theorem Outcome.size_le {r : Bool × List α} (h : Outcome cap len Ok Ends out os r) :
    size len r.2 ≤ cap := by
  cases h with
  | full _ h => exact h
  | gap _ _ h _ => exact h

theorem Writes.skip : Writes cap len Ok Ends Step.skip [] := by
  intro out hout
  have hskip : Step.skip out = (false, out ++ []) := by rw [List.append_nil, Step.skip]
  rw [hskip]
  exact .full (by simp) (by simpa using hout)

/-- One object at the end of what was written. -/
theorem Writes.one {f : Step α} {x : α} (hok : ∀ out, Ok x → size len out + len x ≤ cap →
      f out = (false, out ++ [x]))
    (hgap : ∀ out, size len out ≤ cap → ¬ (Ok x ∧ size len out + len x ≤ cap) →
      ∃ b more, f out = (b, out ++ more) ∧ size len (out ++ more) ≤ cap ∧
        (Ends x → b = true ∧ more = [])) : Writes cap len Ok Ends f [x] := by
  intro out hout
  by_cases hx : Ok x ∧ size len out + len x ≤ cap
  · rw [hok out hx.1 hx.2]
    exact .full (by simpa using hx.1) (by simpa using hx.2)
  · obtain ⟨b, more, hf, hsize, hends⟩ := hgap out hout hx
    have hf' : f out = (b, out ++ [] ++ more) := by rw [hf, List.append_nil]
    rw [hf']
    exact .gap rfl (by simpa using hx) (by simpa using hsize) hends

theorem Writes.andThen {f g : Step α} (hf : Writes cap len Ok Ends f os)
    (hg : Writes cap len Ok Ends g os') : Writes cap len Ok Ends (f.andThen g) (os ++ os') := by
  intro out hout
  have hfo := hf out hout
  unfold Step.andThen
  generalize f out = r at hfo
  cases hfo with
  | full hok hsize =>
    rw [if_neg (by simp)]
    have hgo := hg (out ++ os) hsize
    dsimp only at hgo ⊢
    generalize g (out ++ os) = r' at hgo
    cases hgo with
    | full hok' hsize' =>
      rw [List.append_assoc] at hsize' ⊢
      exact .full (fun x hx => (List.mem_append.1 hx).elim (hok x) (hok' x)) hsize'
    | gap hos' hx hmore hends =>
      rw [List.append_assoc out os] at hx hmore ⊢
      exact .gap (by rw [hos', List.append_assoc]) hx hmore hends
  | @gap pre x post more b hos hx hmore hends =>
    have hos' : os ++ os' = pre ++ x :: (post ++ os') := by rw [hos]; simp
    dsimp only
    split_ifs with hb
    · exact .gap hos' hx hmore hends
    · -- the second step writes behind the gap
      have hnot : ¬ Ends x := fun he => hb (hends he).1
      have hgo := hg (out ++ pre ++ more) hmore
      generalize g (out ++ pre ++ more) = r' at hgo
      cases hgo with
      | full _ hsize' =>
        rw [List.append_assoc (out ++ pre)] at hsize' ⊢
        exact .gap hos' hx hsize' fun he => absurd he hnot
      | gap _ _ hmore' _ =>
        rw [List.append_assoc (out ++ pre ++ more), List.append_assoc (out ++ pre)] at hmore' ⊢
        exact .gap hos' hx hmore' fun he => absurd he hnot

theorem Writes.ignore {f : Step α} (hf : Writes cap len Ok Ends f os)
    (hends : ∀ x ∈ os, ¬ Ends x) : Writes cap len Ok Ends f.ignore os := by
  intro out hout
  have hfo := hf out hout
  unfold Step.ignore
  generalize f out = r at hfo
  cases hfo with
  | full hok hsize => exact .full hok hsize
  | gap hos hx hmore _ =>
    exact .gap hos hx hmore fun he => absurd he (hends _ (by rw [hos]; simp))

theorem Writes.scan {f : β → Step α} {g : β → List α} {bs : List β}
    (hf : ∀ b ∈ bs, Writes cap len Ok Ends (f b) (g b)) :
    Writes cap len Ok Ends (Step.scan f bs) (bs.flatMap g) := by
  induction bs with
  | nil => exact .skip
  | cons b bs ih =>
    rw [List.flatMap_cons]
    exact (hf b List.mem_cons_self).andThen (ih fun b' hb => hf b' (List.mem_cons_of_mem b hb))

/-- One object for each element of a list. -/
theorem Writes.scan_map {f : β → Step α} {g : β → α} {bs : List β}
    (hf : ∀ b, Writes cap len Ok Ends (f b) [g b]) :
    Writes cap len Ok Ends (Step.scan f bs) (bs.map g) := by
  rw [List.map_eq_flatMap]
  exact Writes.scan fun b _ => hf b

end Filling
