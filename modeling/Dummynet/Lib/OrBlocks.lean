import Mathlib

/-!
# Conjunctions of or-blocks

A list of tests, each with a flag that says whether it is joined to the next one by "or". The tests
form blocks, which end at the tests without the flag. The list can be evaluated in one pass, with one
bit of state that says that the rest of a block is skipped.

## Main definitions

* `orBlocks`: the blocks of a list, and the tests after the last block.
* `scan`: the evaluation in one pass.

## Main results

* `scan_eq_some_false_iff`: the pass succeeds exactly if each block has a test that holds, and no test
  after the last block does.
* `orBlocks_append`, `orBlocks_block`: the blocks of a list that is made of blocks.
-/

/-- A test, with the flag that joins it to the next one. -/
structure OrTest where
  or : Bool
  holds : Bool
  deriving DecidableEq, Repr

variable {x : OrTest} {l : List OrTest} {b : Bool}

/-- The blocks of a list of tests: the maximal runs of tests with the flag, each followed by one
without it. The second part are the tests with the flag at the end, which no block contains. -/
def orBlocks : List OrTest → List (List OrTest) × List OrTest
  | [] => ([], [])
  | x :: l =>
    if x.or then
      match orBlocks l with
      | ([], rest) => ([], x :: rest)
      | (b :: bs, rest) => ((x :: b) :: bs, rest)
    else ([x] :: (orBlocks l).1, (orBlocks l).2)

/-- The state after a test, unless the evaluation fails: whether the rest of the block is skipped. -/
def scanStep (skip : Bool) (x : OrTest) : Option Bool :=
  if skip || x.holds then some x.or else if x.or then some false else none

/-- The evaluation of a list in one pass. -/
def scan : Bool → List OrTest → Option Bool
  | skip, [] => some skip
  | skip, x :: l => (scanStep skip x).bind fun skip => scan skip l

/-- All blocks have a test that holds, and no test of the rest does. -/
def BlocksHold (p : List (List OrTest) × List OrTest) : Prop :=
  (∀ b ∈ p.1, ∃ x ∈ b, x.holds = true) ∧ ∀ x ∈ p.2, x.holds = false

theorem scan_iff : (scan false l = some false ↔ BlocksHold (orBlocks l)) ∧
    (scan true l = some false ↔ ∃ b bs, (orBlocks l).1 = b :: bs ∧
      BlocksHold (bs, (orBlocks l).2)) := by
  induction l with
  | nil => simp [scan, orBlocks, BlocksHold]
  | cons x l ih =>
    obtain ⟨or, holds⟩ := x
    cases or with
    | false =>
      cases holds <;> simp [scan, scanStep, orBlocks, ih.1, BlocksHold]
    | true =>
      cases hp : orBlocks l with
      | mk bs rest =>
        rw [hp] at ih
        cases bs with
        | nil => cases holds <;> simp [scan, scanStep, orBlocks, hp, ih, BlocksHold]
        | cons b bs => cases holds <;> simp [scan, scanStep, orBlocks, hp, ih, BlocksHold]

/-- **The evaluation in one pass.** -/
theorem scan_eq_some_false_iff : scan false l = some false ↔ BlocksHold (orBlocks l) := scan_iff.1

/-- After a test that holds, the rest of its block is skipped. -/
theorem scan_of_holds (hx : x.or = true) (hh : x.holds = true) (hl : ∀ y ∈ l, y.or = true) :
    scan false (x :: l) = some true := by
  have hskip : ∀ {l : List OrTest}, (∀ y ∈ l, y.or = true) → scan true l = some true := by
    intro l hl
    induction l with
    | nil => rfl
    | cons y l ih =>
      rw [scan, scanStep, Bool.true_or, if_pos rfl, hl y List.mem_cons_self]
      exact ih fun z hz => hl z (List.mem_cons_of_mem _ hz)
  rw [scan, scanStep, Bool.false_or, if_pos hh, hx]
  exact hskip hl

/-- A list that ends with a block, and what follows it. -/
theorem orBlocks_append {l' : List OrTest} (h : (orBlocks l).2 = []) :
    orBlocks (l ++ l') = ((orBlocks l).1 ++ (orBlocks l').1, (orBlocks l').2) := by
  induction l with
  | nil => rfl
  | cons x l ih =>
    rw [List.cons_append]
    by_cases hor : x.or = true
    · rw [orBlocks, if_pos hor] at h ⊢
      rw [orBlocks, if_pos hor]
      cases hp : orBlocks l with
      | mk bs rest =>
        rw [hp] at h ih
        cases bs with
        | nil => cases h
        | cons b bs =>
          rw [ih h]
          rfl
    · rw [orBlocks, if_neg hor] at h ⊢
      rw [orBlocks, if_neg hor, ih h]
      rfl

/-- A block by itself. -/
theorem orBlocks_block (hl : ∀ y ∈ l, y.or = true) (hx : x.or = false) :
    orBlocks (l ++ [x]) = ([l ++ [x]], []) := by
  induction l with
  | nil =>
    rw [List.nil_append, orBlocks, if_neg (by rw [hx]; exact Bool.false_ne_true)]
    rfl
  | cons y l ih =>
    rw [List.cons_append, orBlocks, if_pos (hl y List.mem_cons_self),
      ih fun z hz => hl z (List.mem_cons_of_mem _ hz)]
