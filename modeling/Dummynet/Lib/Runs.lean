import Mathlib

/-!
# Runs of a machine

A machine is a partial step function from a state and an input to an output and a new state. A
run is a list of steps, each under a condition `ok` on the state before, the input and the state
after, and records the inputs with their outputs, the oldest one first.

## Main definitions

* `Runs.Run`: the runs from one state to another.
* `Runs.exec`: the execution of a list of inputs.
* `Runs.observe`: a machine with an observer that records what it does.
* `Runs.Trace`: the runs of an abstract machine, whose steps are a relation.

## Main results

* `Runs.Run.invariant`: what every step preserves holds at the end of a run.
* `Runs.Run.trans`, `Runs.Run.iterate`: runs compose and can be repeated.
* `Runs.Run.simulation`: what the abstract machine can do after every step, it can do after a run.
-/

namespace Runs

variable {σ ι ω : Type*} {step : σ → ι → Option (ω × σ)} {ok ok' : σ → ι → σ → Prop}

/-- The runs of the machine `step` whose steps all meet `ok`. -/
inductive Run (step : σ → ι → Option (ω × σ)) (ok : σ → ι → σ → Prop) :
    σ → List (ι × ω) → σ → Prop
  | nil (s : σ) : Run step ok s [] s
  | snoc {s t u : σ} {l : List (ι × ω)} {i : ι} {o : ω} :
      Run step ok s l t → ok t i u → step t i = some (o, u) → Run step ok s (l ++ [(i, o)]) u

/-- **Invariants.** A property that every step preserves holds at the end of every run from a
state that has it. -/
theorem Run.invariant {I : σ → Prop}
    (hstep : ∀ s i o t, I s → ok s i t → step s i = some (o, t) → I t)
    {s t : σ} {l : List (ι × ω)} (h : Run step ok s l t) (hs : I s) : I t := by
  induction h with
  | nil => exact hs
  | snoc _ hok hst ih => exact hstep _ _ _ _ ih hok hst

/-- A run under one condition is a run under a weaker one. -/
theorem Run.mono (hok : ∀ s i t, ok s i t → ok' s i t) {s t : σ} {l : List (ι × ω)}
    (h : Run step ok s l t) : Run step ok' s l t := by
  induction h with
  | nil => exact .nil _
  | snoc _ hk hst ih => exact .snoc ih (hok _ _ _ hk) hst

/-- A run of one step. -/
theorem Run.single {s t : σ} {i : ι} {o : ω} (hok : ok s i t) (hst : step s i = some (o, t)) :
    Run step ok s [(i, o)] t :=
  .snoc (.nil s) hok hst

/-- Runs compose. -/
theorem Run.trans {s t u : σ} {l l' : List (ι × ω)} (h : Run step ok s l t)
    (h' : Run step ok t l' u) : Run step ok s (l ++ l') u := by
  induction h' with
  | nil => rwa [List.append_nil]
  | snoc _ hok hst ih =>
    rw [← List.append_assoc]
    exact .snoc ih hok hst

/-- Runs that take a state with `P n` to one with `P (n + 1)` can be repeated. -/
theorem Run.iterate {P : ℕ → σ → Prop}
    (h : ∀ n s, P n s → ∃ l t, Run step ok s l t ∧ P (n + 1) t) {s : σ} (hs : P 0 s) (n : ℕ) :
    ∃ l t, Run step ok s l t ∧ P n t := by
  induction n with
  | zero => exact ⟨[], s, .nil s, hs⟩
  | succ n ih =>
    obtain ⟨l, t, hl, ht⟩ := ih
    obtain ⟨l', u, hl', hu⟩ := h n t ht
    exact ⟨l ++ l', u, hl.trans hl', hu⟩

/-! ### Runs of given inputs -/

/-- Executes the machine on a list of inputs, as long as every step meets `ok`. -/
def exec (step : σ → ι → Option (ω × σ)) (ok : σ → ι → σ → Prop) [∀ s i t, Decidable (ok s i t)] :
    σ → List ι → Option σ
  | s, [] => some s
  | s, i :: is =>
    (step s i).bind fun r => if ok s i r.2 then exec step ok r.2 is else none

/-- An execution is a run. -/
theorem Run.of_exec [∀ s i t, Decidable (ok s i t)] {is : List ι} :
    ∀ {s t : σ}, exec step ok s is = some t → ∃ l, Run step ok s l t := by
  induction is with
  | nil =>
    intro s t h
    obtain rfl : s = t := by simpa [exec] using h
    exact ⟨[], .nil s⟩
  | cons i is ih =>
    intro s t h
    rw [exec, Option.bind_eq_some_iff] at h
    obtain ⟨⟨o, u⟩, hu, h⟩ := h
    split_ifs at h with hok
    obtain ⟨l, hl⟩ := ih h
    exact ⟨_, (Run.single hok hu).trans hl⟩

/-! ### Observers -/

/-- The machine together with an observer, which sees every step and remembers what it wants. -/
def observe {γ : Type*} (step : σ → ι → Option (ω × σ)) (obs : σ → ι → σ → γ → γ) (x : σ × γ)
    (i : ι) : Option (ω × σ × γ) :=
  (step x.1 i).map fun r => (r.1, r.2, obs x.1 i r.2 x.2)

theorem observe_eq_some {γ : Type*} {obs : σ → ι → σ → γ → γ} {x y : σ × γ} {i : ι} {o : ω} :
    observe step obs x i = some (o, y) ↔
      step x.1 i = some (o, y.1) ∧ y.2 = obs x.1 i y.1 x.2 := by
  rw [observe, Option.map_eq_some_iff]
  constructor
  · rintro ⟨⟨o', t⟩, ht, he⟩
    obtain ⟨rfl, rfl⟩ := Prod.mk.inj he
    exact ⟨ht, rfl⟩
  · rintro ⟨ht, he⟩
    exact ⟨_, ht, by rw [← he]⟩

/-- Without its observer, a run is a run of the machine. -/
theorem Run.of_observe {γ : Type*} {obs : σ → ι → σ → γ → γ} {x y : σ × γ}
    {l : List (ι × ω)} (h : Run (observe step obs) (fun x i y => ok x.1 i y.1) x l y) :
    Run step ok x.1 l y.1 := by
  induction h with
  | nil => exact .nil _
  | snoc _ hok hst ih => exact .snoc ih hok (observe_eq_some.1 hst).1

/-- Every run can be observed. -/
theorem Run.observe {γ : Type*} (obs : σ → ι → σ → γ → γ) (g : γ) {s t : σ} {l : List (ι × ω)}
    (h : Run step ok s l t) :
    ∃ g', Run (Runs.observe step obs) (fun x i y => ok x.1 i y.1) (s, g) l (t, g') := by
  induction h with
  | nil => exact ⟨g, .nil _⟩
  | @snoc t u _ i _ _ hok hst ih =>
    obtain ⟨g', hg'⟩ := ih
    exact ⟨obs t i u g', .snoc hg' hok (observe_eq_some.2 ⟨hst, rfl⟩)⟩

/-! ### Simulation -/

/-- The runs of an abstract machine, in which `R a i o b` says that the input `i` can lead from `a`
to `b` with the output `o`. -/
inductive Trace {τ : Type*} (R : τ → ι → ω → τ → Prop) : τ → List (ι × ω) → τ → Prop
  | nil (a : τ) : Trace R a [] a
  | snoc {a b c : τ} {l : List (ι × ω)} {i : ι} {o : ω} :
      Trace R a l b → R b i o c → Trace R a (l ++ [(i, o)]) c

/-- **Simulation.** If the abstract machine can follow every step of the machine, it can follow
every run, with the same outputs. -/
theorem Run.simulation {τ : Type*} {R : τ → ι → ω → τ → Prop} (Rep : σ → τ → Prop)
    (hstep : ∀ s i o t a, Rep s a → ok s i t → step s i = some (o, t) → ∃ b, R a i o b ∧ Rep t b)
    {s t : σ} {l : List (ι × ω)} {a : τ} (h : Run step ok s l t) (hs : Rep s a) :
    ∃ b, Trace R a l b ∧ Rep t b := by
  induction h with
  | nil => exact ⟨a, .nil a, hs⟩
  | snoc _ hok hst ih =>
    obtain ⟨b, hab, hb⟩ := ih
    obtain ⟨c, hbc, hc⟩ := hstep _ _ _ _ b hb hok hst
    exact ⟨c, .snoc hab hbc, hc⟩

end Runs
