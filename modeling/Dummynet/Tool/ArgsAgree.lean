import Mathlib
import Dummynet.Tool.Args

/-!
# A command as one string or as several arguments

A word that ends with a comma is joined with the next one, in both ways of passing a command. For a
single string the loop takes a comma for the end of a list only if it is copied after another
character: a second comma is an ordinary character, and so is one at the beginning of a word. A
comma that joins at the end of the string is removed with the blanks.

## Main definitions

* `Word`, `Blanks`, `commandLine`: the words of a command, and the string with white space between
  them.
* `joinBy`: words joined to groups.
* `squeezed`: the groups that are made of a string.

## Main results

* `ipfwSplit_eq`, `ipfwJoin_eq`: the arrays; nothing is written outside the block.
* `sameArgs_iff`: when the arrays are the same.
-/

namespace Dummynet.Tool

/-! ### Groups of words -/

/-- A character of a word. -/
def IsWordChar (c : BitVec 8) : Prop := strchr whitesp c = false ∧ c ≠ hashMark

/-- A word of a command. -/
structure Word where
  chars : List (BitVec 8)
  ne_nil : chars ≠ []
  word : ∀ c ∈ chars, IsWordChar c

/-- Some white space. -/
structure Blanks where
  chars : List (BitVec 8)
  blank : ∀ c ∈ chars, c ∈ whitesp

/-- White space between words. -/
structure Sep extends Blanks where
  ne_nil : chars ≠ []

/-- Joins a word with the first group. -/
def prepend (w : List (BitVec 8)) : List (List (BitVec 8)) → List (List (BitVec 8))
  | [] => [w]
  | g :: gs => (w ++ g) :: gs

/-- The words with a property are joined with the next one. -/
def joinBy (p : List (BitVec 8) → Bool) : List (List (BitVec 8)) → List (List (BitVec 8))
  | [] => []
  | [w] => [w]
  | w :: w' :: ws => if p w then prepend w (joinBy p (w' :: ws)) else w :: joinBy p (w' :: ws)

/-- The word ends with a comma. -/
def endsComma (w : List (BitVec 8)) : Bool := w.getLast? = some comma

/-- The number of commas at the end. -/
def commas (w : List (BitVec 8)) : ℕ := (w.reverse.takeWhile (· = comma)).length

/-- The last comma is copied behind another character: the number of commas at the end is odd, or
even if there is nothing else. -/
def joins (w : List (BitVec 8)) : Bool :=
  if commas w = w.length then commas w % 2 = 0 else commas w % 2 = 1

theorem commas_snoc (w : List (BitVec 8)) (c : BitVec 8) :
    commas (w ++ [c]) = if c = comma then commas w + 1 else 0 := by
  rw [commas, List.reverse_append, List.reverse_singleton, List.singleton_append,
    List.takeWhile_cons]
  by_cases hc : c = comma
  · simp [hc, commas]
  · simp [hc]

theorem commas_le (w : List (BitVec 8)) : commas w ≤ w.length := by
  have hle := (List.takeWhile_prefix (· = comma) : _ <+: w.reverse).length_le
  rwa [List.length_reverse] at hle

theorem joins_snoc (w : List (BitVec 8)) (c : BitVec 8) :
    joins (w ++ [c]) = (decide (c = comma) && !joins w) := by
  have hle := commas_le w
  rw [joins, joins, commas_snoc, List.length_append, List.length_singleton]
  by_cases hc : c = comma
  · by_cases hall : commas w = w.length
    · rcases Nat.mod_two_eq_zero_or_one w.length with h | h <;>
        simp [hc, hall, h, Nat.add_mod]
    · rcases Nat.mod_two_eq_zero_or_one (commas w) with h | h <;>
        simp [hc, hall, h, Nat.add_mod]
  · simp [hc]

/-- A word that joins ends with a comma, and has another character before it. -/
theorem joins_imp {w : List (BitVec 8)} (hw : w ≠ []) (h : joins w = true) :
    endsComma w = true ∧ w.dropLast ≠ [] := by
  obtain ⟨v, c, rfl⟩ := (List.eq_nil_or_concat' w).resolve_left hw
  rw [joins_snoc, Bool.and_eq_true, decide_eq_true_eq] at h
  obtain ⟨rfl, hv⟩ := h
  refine ⟨by simp [endsComma], ?_⟩
  rw [List.dropLast_concat]
  rintro rfl
  exact absurd hv (by decide)

/-! ### The loop that removes white space -/

/-- The loop on what it has not read yet: the characters that it copies, and the last `copy`. -/
def squeeze : Bool → List (BitVec 8) → List (BitVec 8) × Bool
  | copy, [] => ([], copy)
  | true, c :: cs =>
    (c :: (squeeze (!strchr (comma :: whitesp) c) cs).1,
      (squeeze (!strchr (comma :: whitesp) c) cs).2)
  | false, c :: cs =>
    if !strchr whitesp c then (c :: (squeeze true cs).1, (squeeze true cs).2) else squeeze false cs

/-- The loop in place never overwrites what it has not read. -/
theorem squeezeLoop_eq (n : ℕ) (arg : List (BitVec 8)) (i j : ℕ) (copy : Bool) (hj : j ≤ i)
    (hn : i + n ≤ arg.length) (hhash : ∀ c ∈ (arg.drop i).take n, c ≠ hashMark) :
    ∃ arg', squeezeLoop n arg i j copy =
        (arg', j + (squeeze copy ((arg.drop i).take n)).1.length,
          (squeeze copy ((arg.drop i).take n)).2) ∧
      arg'.take (j + (squeeze copy ((arg.drop i).take n)).1.length) =
        arg.take j ++ (squeeze copy ((arg.drop i).take n)).1 ∧ arg'.length = arg.length := by
  induction n generalizing arg i j copy with
  | zero => exact ⟨arg, by simp [squeezeLoop, squeeze], by simp [squeeze], rfl⟩
  | succ n ih =>
    have hi : i < arg.length := by omega
    have hcons : (arg.drop i).take (n + 1) = arg.getD i 0 :: (arg.drop (i + 1)).take n := by
      rw [List.drop_eq_getElem_cons hi, List.take_succ_cons, List.getD_eq_getElem _ _ hi]
    rw [hcons] at hhash ⊢
    set c := arg.getD i 0 with hc
    have hne : c ≠ hashMark := hhash c List.mem_cons_self
    -- A character that is copied.
    have hput : ∀ copy', ∃ arg', squeezeLoop n (arg.set j c) (i + 1) (j + 1) copy' =
        (arg', j + (c :: (squeeze copy' ((arg.drop (i + 1)).take n)).1).length,
          (squeeze copy' ((arg.drop (i + 1)).take n)).2) ∧
        arg'.take (j + (c :: (squeeze copy' ((arg.drop (i + 1)).take n)).1).length) =
          arg.take j ++ c :: (squeeze copy' ((arg.drop (i + 1)).take n)).1 ∧
        arg'.length = arg.length := by
      intro copy'
      have hdrop : (arg.set j c).drop (i + 1) = arg.drop (i + 1) :=
        List.drop_set_of_lt (by omega)
      have htake : (arg.set j c).take (j + 1) = arg.take j ++ [c] := by
        rw [List.take_set, List.take_succ_eq_append_getElem (by omega), List.set_append_right _ _
          (by rw [List.length_take]; omega)]
        simp [List.length_take, Nat.min_eq_left (show j ≤ arg.length by omega)]
      obtain ⟨arg', h1, h2, h3⟩ := ih (arg.set j c) (i + 1) (j + 1) copy' (by omega)
        (by rw [List.length_set]; omega)
        (by rw [hdrop]; exact fun c' hc' => hhash c' (List.mem_cons_of_mem _ hc'))
      rw [hdrop] at h1 h2
      rw [htake, List.append_assoc, List.singleton_append] at h2
      rw [List.length_cons, ← Nat.add_assoc, Nat.add_right_comm]
      exact ⟨arg', h1, h2, by rw [h3, List.length_set]⟩
    rw [squeezeLoop]
    simp only [← hc, if_neg hne]
    cases copy with
    | true => simpa only [squeeze, if_true] using hput _
    | false =>
      by_cases hb : (!strchr whitesp c) = true
      · simpa only [squeeze, if_pos hb, Bool.false_eq_true, if_false] using hput true
      · obtain ⟨arg', h⟩ := ih arg (i + 1) j false (by omega) (by omega)
          (fun c' hc' => hhash c' (List.mem_cons_of_mem _ hc'))
        exact ⟨arg', by simpa only [squeeze, if_neg hb, Bool.false_eq_true, if_false] using h⟩

/-- The state of the loop behind a word. -/
theorem squeeze_word {w : List (BitVec 8)} (hw : ∀ c ∈ w, IsWordChar c) (rest : List (BitVec 8)) :
    squeeze false (w ++ rest) =
      (w ++ (squeeze (!joins w) rest).1, (squeeze (!joins w) rest).2) := by
  induction w using List.reverseRecOn generalizing rest with
  | nil => rfl
  | append_singleton w c ih =>
    have hc := hw c (by simp)
    rw [List.append_assoc, List.singleton_append, ih (fun c' hc' => hw c' (by simp [hc'])),
      joins_snoc]
    have hcomma : strchr (comma :: whitesp) c = decide (c = comma) := by
      have := hc.1
      simp only [strchr, List.contains_cons] at this ⊢
      rw [Bool.or_eq_false_iff] at this
      rw [this.1, this.2, Bool.or_false, Bool.or_false]
      exact beq_eq_decide _ _
    cases hj : joins w
    · simp [squeeze, hcomma]
    · simp [squeeze, hc.1]

theorem strchr_of_mem {c : BitVec 8} (h : c ∈ whitesp) : strchr whitesp c = true := by
  simp [strchr, h]

/-- White space is skipped behind white space, or behind a comma that joins. -/
theorem squeeze_false_blanks {s : List (BitVec 8)} (hs : ∀ c ∈ s, c ∈ whitesp)
    (rest : List (BitVec 8)) : squeeze false (s ++ rest) = squeeze false rest := by
  induction s with
  | nil => rfl
  | cons c s ih =>
    rw [List.cons_append, squeeze, strchr_of_mem (hs c List.mem_cons_self)]
    exact ih fun c' hc' => hs c' (List.mem_cons_of_mem _ hc')

/-- Behind a word one character of white space is copied. -/
theorem squeeze_true_blanks {b : BitVec 8} {s : List (BitVec 8)} (hs : ∀ c ∈ b :: s, c ∈ whitesp)
    (rest : List (BitVec 8)) :
    squeeze true (b :: s ++ rest) = (b :: (squeeze false rest).1, (squeeze false rest).2) := by
  have hb : strchr (comma :: whitesp) b = true := by
    have := hs b List.mem_cons_self
    simp [strchr, this]
  rw [List.cons_append, squeeze, hb, Bool.not_true,
    squeeze_false_blanks fun c hc => hs c (List.mem_cons_of_mem _ hc)]

/-! ### The squeezed string -/

/-- The groups that are made of the words of a string. -/
def squeezed : List (List (BitVec 8)) → List (List (BitVec 8))
  | [] => []
  | [w] => [if joins w then w.dropLast else w]
  | w :: w' :: ws =>
    if joins w then prepend w (squeezed (w' :: ws)) else w :: squeezed (w' :: ws)

/-- Groups with one blank between two of them. -/
inductive Woven : List (BitVec 8) → List (List (BitVec 8)) → Prop
  | single {g : List (BitVec 8)} (hne : g ≠ []) (hg : ∀ c ∈ g, IsWordChar c) : Woven g [g]
  | cons {g s : List (BitVec 8)} {b : BitVec 8} {gs : List (List (BitVec 8))} (hne : g ≠ [])
      (hg : ∀ c ∈ g, IsWordChar c) (hb : b ∈ whitesp) (hs : Woven s gs) :
      Woven (g ++ b :: s) (g :: gs)

theorem Woven.prepend {s w : List (BitVec 8)} {gs : List (List (BitVec 8))} (h : Woven s gs)
    (hw : ∀ c ∈ w, IsWordChar c) : Woven (w ++ s) (prepend w gs) := by
  have happend : ∀ {g : List (BitVec 8)}, (∀ c ∈ g, IsWordChar c) →
      ∀ c ∈ w ++ g, IsWordChar c := fun hg c hc =>
    (List.mem_append.1 hc).elim (hw c) (hg c)
  cases h with
  | single hne hg => exact .single (by simp [hne]) (happend hg)
  | cons hne hg hb hs =>
    rw [← List.append_assoc]
    exact .cons (by simp [hne]) (happend hg) hb hs

/-- The string behind a word. -/
def lineTail (trail : Blanks) : List (Sep × Word) → List (BitVec 8)
  | [] => trail.chars
  | p :: ps => p.1.chars ++ (p.2.chars ++ lineTail trail ps)

/-- The last character is removed if it does not stand for itself. -/
def trimmed (o : List (BitVec 8) × Bool) : List (BitVec 8) :=
  o.1.take (if !o.2 && 0 < o.1.length then o.1.length - 1 else o.1.length)

theorem trimmed_append {s t : List (BitVec 8)} {copy : Bool} (ht : t ≠ []) :
    trimmed (s ++ t, copy) = s ++ trimmed (t, copy) := by
  have hlen := List.length_pos_iff.2 ht
  cases copy with
  | true => simp [trimmed]
  | false =>
    have hs : 0 < s.length + t.length := by omega
    simp only [trimmed, List.length_append, hlen, hs, Bool.not_false, Bool.true_and,
      decide_true, if_true]
    rw [Nat.add_sub_assoc hlen, List.take_length_add_append]

theorem trimmed_snoc (s : List (BitVec 8)) (c : BitVec 8) : trimmed (s ++ [c], false) = s := by
  simp [trimmed]

/-- **The squeezed string** has the groups with one blank between two of them. -/
theorem woven_squeeze (w : Word) (trail : Blanks) (ps : List (Sep × Word)) :
    Woven (trimmed (squeeze false (w.chars ++ lineTail trail ps)))
      (squeezed (w.chars :: ps.map (·.2.chars))) := by
  induction ps generalizing w with
  | nil =>
    rw [lineTail, squeeze_word w.word, List.map_nil, squeezed]
    cases hj : joins w.chars with
    | true =>
      have hdrop := (joins_imp w.ne_nil hj).2
      obtain ⟨v, c, hv⟩ := (List.eq_nil_or_concat' w.chars).resolve_left w.ne_nil
      rw [Bool.not_true, ← List.append_nil trail.chars, squeeze_false_blanks trail.blank,
        if_pos rfl, squeeze, List.append_nil]
      rw [hv, List.dropLast_concat] at hdrop ⊢
      rw [trimmed_snoc]
      exact .single hdrop fun c' hc' => w.word c' (by rw [hv]; simp [hc'])
    | false =>
      have hword := Woven.single w.ne_nil w.word
      rw [Bool.not_false, if_neg (by simp)]
      obtain ⟨t, ht⟩ := trail
      cases t with
      | nil =>
        rw [squeeze, List.append_nil]
        simpa [trimmed] using hword
      | cons b t =>
        have hblank := squeeze_true_blanks ht []
        rw [List.append_nil] at hblank
        rw [hblank, squeeze, trimmed_snoc]
        exact hword
  | cons p ps ih =>
    have hnext := ih p.2
    rw [lineTail, squeeze_word w.word, List.map_cons, squeezed]
    have hne : (squeeze false (p.2.chars ++ lineTail trail ps)).1 ≠ [] := by
      rw [squeeze_word p.2.word]
      simp [p.2.ne_nil]
    cases hj : joins w.chars with
    | true =>
      rw [Bool.not_true, squeeze_false_blanks p.1.blank, trimmed_append hne, if_pos rfl]
      exact hnext.prepend w.word
    | false =>
      obtain ⟨⟨⟨s, hs⟩, hsne⟩, w'⟩ := p
      obtain ⟨b, s, rfl⟩ := List.exists_cons_of_ne_nil hsne
      rw [Bool.not_false, squeeze_true_blanks hs, if_neg (by simp)]
      rw [← List.singleton_append, ← List.append_assoc, trimmed_append hne, List.append_assoc]
      exact .cons w.ne_nil w.word (hs b List.mem_cons_self) hnext

/-! ### The block -/

/-- The strings in the block, each with a 0 behind it. -/
def stringBytes (gs : List (List (BitVec 8))) : List (BitVec 8) := gs.flatMap (· ++ [0])

/-- The addresses of the strings. -/
def stringsAt : List (List (BitVec 8)) → ℕ → List ℕ
  | [], _ => []
  | g :: gs, p => p :: stringsAt gs (p + g.length + 1)

theorem length_stringsAt (gs : List (List (BitVec 8))) (p : ℕ) :
    (stringsAt gs p).length = gs.length := by
  induction gs generalizing p with
  | nil => rfl
  | cons g gs ih => rw [stringsAt, List.length_cons, ih, List.length_cons]

theorem stringBytes_cons (g : List (BitVec 8)) (gs : List (List (BitVec 8))) :
    stringBytes (g :: gs) = g ++ [0] ++ stringBytes gs := rfl

/-- The strings are read as they were written. -/
theorem map_string {gs : List (List (BitVec 8))} (hgs : ∀ g ∈ gs, 0 ∉ g) {b : AvBlock}
    {pre post : List (BitVec 8)} (hb : b.strs = pre ++ stringBytes gs ++ post) :
    (stringsAt gs pre.length).map b.string = gs := by
  induction gs generalizing pre with
  | nil => rfl
  | cons g gs ih =>
    rw [stringBytes_cons] at hb
    have hrest := ih (fun g' hg' => hgs g' (List.mem_cons_of_mem _ hg'))
      (show b.strs = pre ++ (g ++ [0]) ++ stringBytes gs ++ post by
        simpa only [List.append_assoc] using hb)
    have hg : b.string pre.length = g := by
      rw [AvBlock.string, hb]
      simp only [List.append_assoc]
      rw [List.drop_left, List.takeWhile_append_of_pos]
      · simp
      · intro c hc
        have : c ≠ 0 := fun h0 => hgs g List.mem_cons_self (h0 ▸ hc)
        simpa using this
    rw [stringsAt, List.map_cons, hg]
    simp only [List.length_append, List.length_singleton, ← Nat.add_assoc] at hrest
    rw [hrest]

/-- The array with the strings. -/
theorem argv_stringBytes {gs : List (List (BitVec 8))} (hgs : ∀ g ∈ gs, 0 ∉ g) {slots : ℕ}
    (hslots : gs.length + 1 < slots) (post prog : List (BitVec 8)) :
    AvBlock.argv ⟨slots, stringsAt gs 0, stringBytes gs ++ post⟩ prog = some (prog :: gs) := by
  have hstrings := map_string hgs
    (show (AvBlock.mk slots (stringsAt gs 0) (stringBytes gs ++ post)).strs =
      [] ++ stringBytes gs ++ post by simp)
  rw [List.length_nil] at hstrings
  rw [AvBlock.argv, if_pos (by rw [AvBlock.ac, length_stringsAt]; exact hslots), hstrings]

section Put

variable {slots avp m : ℕ} {ptrs : List ℕ} {pre g : List (BitVec 8)}

/-- A string is written behind the others. -/
theorem write_replicate (slots : ℕ) (ptrs : List ℕ) (hpre : pre.length = avp) (hg : g.length ≤ m) :
    AvBlock.write ⟨slots, ptrs, pre ++ List.replicate m 0⟩ avp g =
      some ⟨slots, ptrs, pre ++ g ++ List.replicate (m - g.length) 0⟩ := by
  obtain ⟨k, rfl⟩ : ∃ k, m = g.length + k := ⟨m - g.length, by omega⟩
  have hw := Buffer.write_append
    (show (List.replicate g.length (0 : BitVec 8)).length = g.length by simp) pre
    (List.replicate k 0)
  rw [hpre, List.append_assoc, List.replicate_append_replicate] at hw
  rw [AvBlock.write, hw, Nat.add_sub_cancel_left]
  rfl

theorem push_eq (hslots : ptrs.length + 1 < slots) (strs : List (BitVec 8)) (p : ℕ) :
    AvBlock.push ⟨slots, ptrs, strs⟩ p = some ⟨slots, ptrs ++ [p], strs⟩ :=
  if_pos hslots

end Put

/-! ### A single argument -/

section Split

variable {arg : List (BitVec 8)} {l : ℕ}

/-- Characters of a word are passed. -/
theorem splitLoop_skip (n m i j avp : ℕ) (b : AvBlock)
    (h : ∀ k < m, strchr whitesp (arg.getD (i + k) 0) = false ∧ i + k ≠ l - 1) :
    splitLoop arg l (n + m) i j avp b = splitLoop arg l n (i + m) j avp b := by
  induction m generalizing i with
  | zero => rfl
  | succ m ih =>
    have h0 := h 0 (Nat.succ_pos m)
    rw [Nat.add_zero] at h0
    rw [← Nat.add_assoc, splitLoop, if_neg (not_or.2 ⟨Bool.eq_false_iff.1 h0.1, h0.2⟩),
      ih (i + 1) fun k hk => by
        have := h (k + 1) (by omega)
        rwa [show i + (k + 1) = i + 1 + k by omega] at this]
    congr 1
    omega

/-- The characters of a part of the string. -/
theorem getD_of_take {s : List (BitVec 8)} {i k : ℕ} (h : (arg.drop i).take s.length = s)
    (hk : k < s.length) : arg.getD (i + k) 0 = s.getD k 0 := by
  have hget : s.getD k 0 = ((arg.drop i).take s.length).getD k 0 := by rw [h]
  rw [hget]
  simp only [List.getD_eq_getElem?_getD, List.getElem?_take, if_pos hk, List.getElem?_drop]

theorem isWordChar_getD {s : List (BitVec 8)} {i k : ℕ} (h : (arg.drop i).take s.length = s)
    (hs : ∀ c ∈ s, IsWordChar c) (hk : k < s.length) : IsWordChar (arg.getD (i + k) 0) := by
  rw [getD_of_take h hk, List.getD_eq_getElem _ _ hk]
  exact hs _ (List.getElem_mem hk)

theorem Woven.ne_nil {s : List (BitVec 8)} {gs : List (List (BitVec 8))} (h : Woven s gs) :
    s ≠ [] := by
  cases h with
  | single hne => exact hne
  | cons => simp

/-- A word is copied at its end. -/
theorem splitLoop_put (n i j e : ℕ) {avp m slots : ℕ} {ptrs : List ℕ} {pre g : List (BitVec 8)}
    (hend : strchr whitesp (arg.getD i 0) = true ∨ i = l - 1)
    (he : (if i = l - 1 then i + 1 else i) = e) (hlen : e - j = g.length)
    (hg : (arg.drop j).take g.length = g) (hpre : pre.length = avp) (hm : g.length < m)
    (hslots : ptrs.length + 1 < slots) :
    splitLoop arg l (n + 1) i j avp ⟨slots, ptrs, pre ++ List.replicate m 0⟩ =
      splitLoop arg l n (e + 1) (e + 1) (avp + g.length + 1)
        ⟨slots, ptrs ++ [avp], pre ++ (g ++ [0]) ++ List.replicate (m - (g.length + 1)) 0⟩ := by
  have w1 := write_replicate slots ptrs hpre hm.le
  have w2 := write_replicate slots (ptrs ++ [avp])
    (show (pre ++ g).length = avp + g.length by rw [List.length_append, hpre])
    (show ([0] : List (BitVec 8)).length ≤ m - g.length by rw [List.length_singleton]; omega)
  rw [List.length_singleton, Nat.sub_sub, List.append_assoc pre g [0]] at w2
  rw [splitLoop, if_pos hend]
  simp only [he, hlen, hg, w1, push_eq hslots, w2, Option.bind_eq_bind, Option.bind_some]

/-- The loop copies the groups. -/
theorem splitLoop_eq {s : List (BitVec 8)} {gs : List (List (BitVec 8))} (hs : Woven s gs)
    {slots : ℕ} (i avp : ℕ) (ptrs : List ℕ) (pre : List (BitVec 8))
    (harg : (arg.drop i).take s.length = s) (hl : i + s.length = l) (hpre : pre.length = avp)
    (hslots : ptrs.length + gs.length < slots) :
    splitLoop arg l s.length i i avp ⟨slots, ptrs, pre ++ List.replicate (s.length + 1) 0⟩ =
      some ⟨slots, ptrs ++ stringsAt gs avp, pre ++ stringBytes gs⟩ := by
  induction hs generalizing i avp ptrs pre with
  | @single g hne hg =>
    obtain ⟨m, hm⟩ : ∃ m, g.length = m + 1 :=
      ⟨g.length - 1, by have := List.length_pos_iff.2 hne; omega⟩
    rw [List.length_singleton] at hslots
    have hchars : ∀ k < m, strchr whitesp (arg.getD (i + k) 0) = false ∧ i + k ≠ l - 1 :=
      fun k hk => ⟨(isWordChar_getD harg hg (by omega)).1, by omega⟩
    have hput := splitLoop_put (l := l) 0 (i + m) i (i + m + 1) (.inr (by omega))
      (if_pos (by omega)) (by omega) harg hpre (Nat.lt_succ_self g.length) hslots
    have hskip := splitLoop_skip (0 + 1) m i i avp
      ⟨slots, ptrs, pre ++ List.replicate (g.length + 1) 0⟩ hchars
    rw [show 0 + 1 + m = g.length by omega] at hskip
    rw [hskip, hput, splitLoop, Nat.sub_self]
    simp [stringBytes, stringsAt]
  | @cons g s b gs hne hg hb hs ih =>
    simp only [List.length_append, List.length_cons] at harg hl hslots ⊢
    -- The string from here on: the group, the blank, and the others.
    have hsplit : arg.drop i =
        g ++ (b :: (s ++ (arg.drop i).drop (g.length + (s.length + 1)))) := by
      nth_rewrite 1 [← List.take_append_drop (g.length + (s.length + 1)) (arg.drop i), harg]
      simp
    generalize (arg.drop i).drop (g.length + (s.length + 1)) = rest at hsplit
    have hg' : (arg.drop i).take g.length = g := by rw [hsplit, List.take_left]
    have hs' : (arg.drop (i + g.length + 1)).take s.length = s := by
      rw [← List.drop_drop, ← List.drop_drop, hsplit, List.drop_left, List.drop_one, List.tail_cons,
        List.take_left]
    have hblank : arg.getD (i + g.length) 0 = b := by
      have hget : (arg.drop i).getD g.length 0 = b := by
        rw [hsplit, List.getD_append_right _ _ _ _ le_rfl, Nat.sub_self]
        rfl
      rw [← hget]
      simp only [List.getD_eq_getElem?_getD, List.getElem?_drop]
    have hlen := List.length_pos_iff.2 hs.ne_nil
    have hchars : ∀ k < g.length,
        strchr whitesp (arg.getD (i + k) 0) = false ∧ i + k ≠ l - 1 :=
      fun k hk => ⟨(isWordChar_getD hg' hg hk).1, by omega⟩
    have hput : splitLoop arg l (s.length + 1) (i + g.length) i avp
        ⟨slots, ptrs, pre ++ List.replicate (g.length + (s.length + 1) + 1) 0⟩ = _ :=
      splitLoop_put s.length (i + g.length) i (i + g.length) (.inl (by
        rw [hblank]; exact strchr_of_mem hb)) (if_neg (by omega)) (by omega) hg' hpre
        (show g.length < g.length + (s.length + 1) + 1 by omega) (by omega)
    have hnext := ih (i + g.length + 1) (avp + g.length + 1) (ptrs ++ [avp])
      (pre ++ (g ++ [0])) hs' (by omega)
      (by simp only [List.length_append, List.length_singleton, hpre, Nat.add_assoc])
      (by rw [List.length_append, List.length_singleton]; omega)
    have hskip := splitLoop_skip (s.length + 1) g.length i i avp
      ⟨slots, ptrs, pre ++ List.replicate (g.length + (s.length + 1) + 1) 0⟩ hchars
    rw [Nat.add_comm (s.length + 1) g.length] at hskip
    rw [hskip, hput, show g.length + (s.length + 1) + 1 - (g.length + 1) = s.length + 1 by omega,
      hnext, stringBytes_cons, stringsAt]
    simp

theorem Woven.countP {s : List (BitVec 8)} {gs : List (List (BitVec 8))} (h : Woven s gs) :
    s.countP (strchr whitesp) + 1 = gs.length := by
  have hword : ∀ {g : List (BitVec 8)}, (∀ c ∈ g, IsWordChar c) → g.countP (strchr whitesp) = 0 :=
    fun hg => List.countP_eq_zero.2 fun c hc => by rw [(hg c hc).1]; exact Bool.false_ne_true
  induction h with
  | single _ hg => rw [hword hg, List.length_singleton]
  | cons _ hg hb _ ih =>
    rw [List.countP_append, hword hg, List.countP_cons_of_pos (strchr_of_mem hb), List.length_cons]
    omega

theorem isWordChar_ne_zero {c : BitVec 8} (h : IsWordChar c) : c ≠ 0 := by
  rintro rfl
  exact absurd h.1 (by decide)

theorem Woven.zero_notMem {s : List (BitVec 8)} {gs : List (List (BitVec 8))} (h : Woven s gs) :
    ∀ g ∈ gs, 0 ∉ g := by
  have hword : ∀ {g : List (BitVec 8)}, (∀ c ∈ g, IsWordChar c) → 0 ∉ g :=
    fun hg h0 => isWordChar_ne_zero (hg 0 h0) rfl
  induction h with
  | single _ hg => exact fun g' hg' => List.mem_singleton.1 hg' ▸ hword hg
  | cons _ hg _ _ ih => exact List.forall_mem_cons.2 ⟨hword hg, ih⟩

/-- The string with the words of a command. -/
def commandLine (lead : Blanks) (w : Word) (ps : List (Sep × Word)) (trail : Blanks) :
    List (BitVec 8) :=
  lead.chars ++ (w.chars ++ lineTail trail ps)

theorem commandLine_ne_hashMark (lead : Blanks) (w : Word) (ps : List (Sep × Word))
    (trail : Blanks) : ∀ c ∈ commandLine lead w ps trail, c ≠ hashMark := by
  have hblank : ∀ s : Blanks, ∀ c ∈ s.chars, c ≠ hashMark := by
    rintro s c hc rfl
    exact absurd (s.blank _ hc) (by decide)
  have hword : ∀ w : Word, ∀ c ∈ w.chars, c ≠ hashMark := fun w c hc => (w.word c hc).2
  have htail : ∀ c ∈ lineTail trail ps, c ≠ hashMark := by
    induction ps with
    | nil => exact hblank trail
    | cons p ps ih =>
      intro c hc
      rw [lineTail, List.mem_append, List.mem_append] at hc
      rcases hc with hc | hc | hc
      · exact hblank p.1.toBlanks c hc
      · exact hword p.2 c hc
      · exact ih c hc
  intro c hc
  rw [commandLine, List.mem_append, List.mem_append] at hc
  rcases hc with hc | hc | hc
  · exact hblank lead c hc
  · exact hword w c hc
  · exact htail c hc

/-- **The array for a string** with the words of a command. -/
theorem ipfwSplit_eq (prog : List (BitVec 8)) (lead : Blanks) (w : Word) (ps : List (Sep × Word))
    (trail : Blanks) :
    ipfwSplit prog (commandLine lead w ps trail) =
      some (some (prog :: squeezed (w.chars :: ps.map (·.2.chars)))) := by
  have hwoven := woven_squeeze w trail ps
  set gs := squeezed (w.chars :: ps.map (·.2.chars)) with hgs
  have hline : squeeze false (commandLine lead w ps trail) =
      squeeze false (w.chars ++ lineTail trail ps) := squeeze_false_blanks lead.blank _
  rw [← hline] at hwoven
  have htake :
      ((commandLine lead w ps trail ++ [0]).drop 0).take (commandLine lead w ps trail).length =
      commandLine lead w ps trail := by
    rw [List.drop_zero, List.take_left]
  obtain ⟨arg', hrun, hout, hlen⟩ := squeezeLoop_eq (commandLine lead w ps trail).length
    (commandLine lead w ps trail ++ [0]) 0 0 false le_rfl (by simp) (by
      rw [htake]
      exact commandLine_ne_hashMark lead w ps trail)
  rw [htake, Nat.zero_add] at hrun hout
  rw [List.take_zero, List.nil_append] at hout
  generalize squeeze false (commandLine lead w ps trail) = o at hwoven hrun hout
  rw [ipfwSplit, hrun]
  simp only
  rw [trimmed] at hwoven
  set l := if !o.2 && decide (0 < o.1.length) then o.1.length - 1 else o.1.length with hl
  have hlle : l ≤ o.1.length := by
    rw [hl]
    split_ifs <;> omega
  have hs : (arg'.set l 0).take l = o.1.take l := by
    rw [List.take_set_of_le (le_refl l), ← hout, List.take_take, Nat.min_eq_left hlle]
  have hslen : (o.1.take l).length = l := List.length_take_of_le hlle
  have hpos := List.length_pos_iff.2 hwoven.ne_nil
  rw [hslen] at hpos
  have hcount := hwoven.countP
  have hloop : splitLoop (arg'.set l 0) l (o.1.take l).length 0 0 0
      ⟨1 + (o.1.take l).countP (strchr whitesp) + 1 + 1, [],
        [] ++ List.replicate ((o.1.take l).length + 1) 0⟩ = _ :=
    splitLoop_eq hwoven 0 0 [] [] (by rw [List.drop_zero, hslen, hs]) (by rw [hslen, Nat.zero_add])
      rfl (by rw [List.length_nil]; omega)
  rw [hslen, List.nil_append, List.nil_append, List.nil_append] at hloop
  have hargv := argv_stringBytes hwoven.zero_notMem
    (show gs.length + 1 < 1 + (o.1.take l).countP (strchr whitesp) + 1 + 1 by omega) [] prog
  rw [List.append_nil] at hargv
  rw [if_neg hpos.ne', hs, hloop]
  simp only [Option.bind_eq_bind, Option.bind_some, hargv]
  rfl

end Split

/-! ### Several arguments -/

section Join

variable {slots m : ℕ} {ptrs : List ℕ} {pre : List (BitVec 8)}

theorem prepend_ne_nil (w : List (BitVec 8)) (gs : List (List (BitVec 8))) :
    prepend w gs ≠ [] := by
  cases gs <;> simp [prepend]

theorem prepend_prepend (v w : List (BitVec 8)) (gs : List (List (BitVec 8))) :
    prepend v (prepend w gs) = prepend (v ++ w) gs := by
  cases gs <;> simp [prepend]

theorem joinBy_ne_nil (p : List (BitVec 8) → Bool) (w : List (BitVec 8))
    (ws : List (List (BitVec 8))) : joinBy p (w :: ws) ≠ [] := by
  cases ws with
  | nil => simp [joinBy]
  | cons w' ws =>
    rw [joinBy]
    split_ifs
    · exact prepend_ne_nil _ _
    · simp

theorem prepend_nil {gs : List (List (BitVec 8))} (h : gs ≠ []) : prepend [] gs = gs := by
  cases gs with
  | nil => exact absurd rfl h
  | cons g gs => rfl

theorem length_prepend (w : List (BitVec 8)) {gs : List (List (BitVec 8))} (h : gs ≠ []) :
    (prepend w gs).length = gs.length := by
  cases gs with
  | nil => exact absurd rfl h
  | cons g gs => rfl

theorem length_stringBytes_prepend (w : List (BitVec 8)) {gs : List (List (BitVec 8))}
    (h : gs ≠ []) : (stringBytes (prepend w gs)).length = w.length + (stringBytes gs).length := by
  cases gs with
  | nil => exact absurd rfl h
  | cons g gs =>
    rw [prepend, stringBytes_cons, stringBytes_cons]
    simp only [List.length_append]
    omega

/-- The groups need no more room than the words. -/
theorem length_joinBy (p : List (BitVec 8) → Bool) (ws : List (List (BitVec 8))) :
    (joinBy p ws).length ≤ ws.length ∧
      (stringBytes (joinBy p ws)).length ≤ ws.flatten.length + ws.length := by
  induction ws with
  | nil => exact ⟨le_rfl, le_rfl⟩
  | cons w ws ih =>
    cases ws with
    | nil => simp [joinBy, stringBytes]
    | cons w' ws =>
      have hne := joinBy_ne_nil p w' ws
      obtain ⟨hlen, hbytes⟩ := ih
      rw [joinBy, List.flatten_cons, List.length_append, List.length_cons]
      split_ifs
      · rw [length_prepend w hne, length_stringBytes_prepend w hne]
        omega
      · rw [List.length_cons, stringBytes_cons, List.length_append, List.length_append,
          List.length_singleton]
        omega

/-- The loop that joins writes the words one behind the other. -/
theorem catLoop_eq (ss : List (List (BitVec 8))) (slots : ℕ) (ptrs : List ℕ) {avp m : ℕ}
    {pre : List (BitVec 8)} (hpre : pre.length = avp) (hm : ss.flatten.length < m) :
    catLoop ss avp ⟨slots, ptrs, pre ++ List.replicate m 0⟩ =
      some (avp + ss.flatten.length,
        ⟨slots, ptrs, pre ++ ss.flatten ++ List.replicate (m - ss.flatten.length) 0⟩) := by
  induction ss generalizing avp m pre with
  | nil => simp [catLoop]
  | cons s ss ih =>
    rw [List.flatten_cons, List.length_append] at hm
    have hempty : AvBlock.string ⟨slots, ptrs, pre ++ List.replicate m 0⟩ avp = [] := by
      obtain ⟨k, rfl⟩ : ∃ k, m = k + 1 := ⟨m - 1, by omega⟩
      rw [AvBlock.string, ← hpre, List.drop_left, List.replicate_succ]
      simp
    have hput := write_replicate slots ptrs hpre (show (s ++ [0]).length ≤ m by
      rw [List.length_append, List.length_singleton]; omega)
    have hzero : pre ++ (s ++ [0]) ++ List.replicate (m - (s ++ [0]).length) 0 =
        pre ++ s ++ List.replicate (m - s.length) 0 := by
      rw [List.length_append, List.length_singleton,
        show m - s.length = 1 + (m - (s.length + 1)) by omega, ← List.replicate_append_replicate]
      simp
    rw [hzero] at hput
    have hnext := ih (show (pre ++ s).length = avp + s.length by rw [List.length_append, hpre])
      (show ss.flatten.length < m - s.length by omega)
    rw [List.append_assoc pre s ss.flatten, Nat.sub_sub, Nat.add_assoc] at hnext
    rw [catLoop, AvBlock.strcat, hempty, List.length_nil, Nat.add_zero, hput, List.flatten_cons,
      List.length_append]
    exact hnext

/-- The pending arguments are copied. -/
theorem joinLoop_put (oldav : List (List (BitVec 8))) (n i first : ℕ) {avp m slots : ℕ}
    {ptrs : List ℕ} {pre : List (BitVec 8)} {p : List (List (BitVec 8))}
    (hend : (oldav.getD i []).getLast? ≠ some comma ∨ i = oldav.length - 1)
    (hp : (oldav.drop first).take (i + 1 - first) = p) (hpre : pre.length = avp)
    (hm : p.flatten.length < m) (hslots : ptrs.length + 1 < slots) :
    joinLoop oldav (n + 1) i first avp ⟨slots, ptrs, pre ++ List.replicate m 0⟩ =
      joinLoop oldav n (i + 1) (i + 1) (avp + p.flatten.length + 1)
        ⟨slots, ptrs ++ [avp],
          pre ++ (p.flatten ++ [0]) ++ List.replicate (m - (p.flatten.length + 1)) 0⟩ := by
  have hcat := catLoop_eq p slots (ptrs ++ [avp]) hpre hm
  have hw := write_replicate slots (ptrs ++ [avp])
    (show (pre ++ p.flatten).length = avp + p.flatten.length by rw [List.length_append, hpre])
    (show ([0] : List (BitVec 8)).length ≤ m - p.flatten.length by
      rw [List.length_singleton]; omega)
  rw [List.append_assoc pre p.flatten [0], List.length_singleton, Nat.sub_sub] at hw
  rw [joinLoop, if_pos hend, push_eq hslots]
  simp only [hp, Option.bind_eq_bind, Option.bind_some, hcat, hw]

/-- One more argument is pending. -/
theorem take_pending {oldav ws p : List (List (BitVec 8))} {w : List (BitVec 8)} {i first : ℕ}
    (hi : oldav.drop i = w :: ws) (hfirst : first ≤ i)
    (hp : (oldav.drop first).take (i - first) = p) :
    (oldav.drop first).take (i + 1 - first) = p ++ [w] := by
  have hw : oldav[i]? = some w := by
    rw [← Nat.add_zero i, ← List.getElem?_drop, hi]
    rfl
  rw [show i + 1 - first = (i - first) + 1 by omega, List.take_add_one, hp, List.getElem?_drop,
    show first + (i - first) = i by omega, hw]
  rfl

/-- The loop over the arguments from the `i`-th one on, with the ones from `first` on pending. -/
theorem joinLoop_eq (oldav : List (List (BitVec 8))) (ws : List (List (BitVec 8))) {slots : ℕ}
    (w : List (BitVec 8)) (i first avp m : ℕ) (ptrs : List ℕ) (pre : List (BitVec 8))
    (p : List (List (BitVec 8))) (gs : List (List (BitVec 8)))
    (hi : oldav.drop i = w :: ws) (hfirst : first ≤ i)
    (hp : (oldav.drop first).take (i - first) = p) (hpre : pre.length = avp)
    (hgs : gs = prepend p.flatten (joinBy endsComma (w :: ws)))
    (hm : (stringBytes gs).length ≤ m) (hslots : ptrs.length + gs.length < slots) :
    joinLoop oldav (ws.length + 1) i first avp ⟨slots, ptrs, pre ++ List.replicate m 0⟩ =
      some ⟨slots, ptrs ++ stringsAt gs avp,
        pre ++ stringBytes gs ++ List.replicate (m - (stringBytes gs).length) 0⟩ := by
  induction ws generalizing w i first avp m ptrs pre p gs with
  | nil =>
    have hlen : oldav.length = i + 1 := by
      have := congrArg List.length hi
      rw [List.length_drop, List.length_singleton] at this
      omega
    have hsnoc := take_pending hi hfirst hp
    have hflat : (p ++ [w]).flatten = p.flatten ++ w := by simp
    have hg : gs = [p.flatten ++ w] := hgs
    subst hg
    simp only [stringBytes, List.flatMap_cons, List.flatMap_nil, List.append_nil,
      List.length_append, List.length_singleton] at hm hslots ⊢
    have hput := joinLoop_put oldav 0 i first (.inr (by omega)) hsnoc hpre
      (show (p ++ [w]).flatten.length < m by rw [hflat, List.length_append]; omega) hslots
    rw [hflat, List.length_append] at hput
    exact hput
  | cons w' ws ih =>
    have hlen : oldav.length = i + (ws.length + 2) := by
      have := congrArg List.length hi
      rw [List.length_drop, List.length_cons, List.length_cons] at this
      omega
    have hnext : oldav.drop (i + 1) = w' :: ws := by
      rw [← List.drop_drop, hi]
      rfl
    have hget : oldav.getD i [] = w := by
      have : (oldav.drop i).getD 0 [] = w := by rw [hi]; rfl
      rw [← this]
      simp [List.getD_eq_getElem?_getD]
    have hsnoc := take_pending hi hfirst hp
    have hflat : (p ++ [w]).flatten = p.flatten ++ w := by simp
    rw [joinBy] at hgs
    by_cases hc : endsComma w = true
    · -- The argument stays pending.
      rw [if_pos hc, prepend_prepend, ← hflat] at hgs
      have hskip : joinLoop oldav (ws.length + 1 + 1) i first avp
          ⟨slots, ptrs, pre ++ List.replicate m 0⟩ = joinLoop oldav (ws.length + 1) (i + 1) first
            avp ⟨slots, ptrs, pre ++ List.replicate m 0⟩ := by
        rw [joinLoop, if_neg]
        rw [not_or, not_not, hget]
        exact ⟨of_decide_eq_true hc, by omega⟩
      rw [List.length_cons, hskip]
      exact ih w' (i + 1) first avp m ptrs pre _ gs hnext (by omega) hsnoc hpre hgs hm hslots
    · have hne := joinBy_ne_nil endsComma w' ws
      have hg : gs = (p.flatten ++ w) :: joinBy endsComma (w' :: ws) := by
        rw [hgs, if_neg hc]
        rfl
      subst hg
      rw [stringBytes_cons] at hm ⊢
      simp only [List.length_append, List.length_cons] at hm hslots ⊢
      have hput := joinLoop_put oldav (ws.length + 1) i first
        (.inl (by rw [hget]; exact fun h => hc (decide_eq_true h))) hsnoc hpre
        (show (p ++ [w]).flatten.length < m by rw [hflat, List.length_append]; omega)
        (show ptrs.length + 1 < slots by omega)
      rw [hflat, List.length_append] at hput
      have hrest := ih w' (i + 1) (i + 1) (avp + (p.flatten.length + w.length) + 1)
        (m - (p.flatten.length + w.length + 1)) (ptrs ++ [avp]) (pre ++ (p.flatten ++ w ++ [0])) []
        (joinBy endsComma (w' :: ws)) hnext le_rfl (by rw [Nat.sub_self, List.take_zero])
        (by simp only [List.length_append, List.length_singleton, hpre]; omega)
        (by rw [List.flatten_nil, prepend_nil hne]) (by omega)
        (by rw [List.length_append, List.length_singleton]; omega)
      rw [hput, hrest, stringsAt, List.length_append]
      simp [Nat.sub_sub, Nat.add_assoc]

theorem joinBy_notMem (p : List (BitVec 8) → Bool) {ws : List (List (BitVec 8))}
    (hws : ∀ w ∈ ws, 0 ∉ w) : ∀ g ∈ joinBy p ws, 0 ∉ g := by
  induction ws with
  | nil => exact fun g hg => absurd hg (List.not_mem_nil)
  | cons w ws ih =>
    obtain ⟨hw, hws⟩ := List.forall_mem_cons.1 hws
    cases ws with
    | nil => simpa [joinBy] using hw
    | cons w' ws =>
      have hrest := ih hws
      rw [joinBy]
      split_ifs
      · cases hj : joinBy p (w' :: ws) with
        | nil => simpa [prepend] using hw
        | cons g gs =>
          rw [hj, List.forall_mem_cons] at hrest
          rw [prepend, List.forall_mem_cons, List.mem_append, not_or]
          exact ⟨⟨hw, hrest.1⟩, hrest.2⟩
      · exact List.forall_mem_cons.2 ⟨hw, hrest⟩

/-- **The array for several arguments**, which do not contain the end of a string. -/
theorem ipfwJoin_eq (prog w : List (BitVec 8)) (ws : List (List (BitVec 8)))
    (hws : ∀ v ∈ w :: ws, 0 ∉ v) :
    ipfwJoin (prog :: w :: ws) = some (some (prog :: joinBy endsComma (w :: ws))) := by
  obtain ⟨hlen, hbytes⟩ := length_joinBy endsComma (w :: ws)
  rw [List.length_cons] at hlen hbytes
  set gs := joinBy endsComma (w :: ws) with hgs
  set l := ((prog :: w :: ws).map List.length).sum with hl
  have hsum : l = prog.length + (w :: ws).flatten.length := by
    rw [hl, List.length_flatten, List.map_cons, List.sum_cons]
  set m := l + (prog :: w :: ws).length with hm
  have hroom : (stringBytes gs).length ≤ m := by
    rw [hm, hsum, List.length_cons, List.length_cons]
    omega
  have hslots : gs.length + 1 < (prog :: w :: ws).length + 1 := by
    rw [List.length_cons, List.length_cons]
    omega
  have hloop := joinLoop_eq (prog :: w :: ws) ws w 1 1 0 m [] [] [] gs rfl le_rfl rfl rfl
    (by rw [List.flatten_nil, prepend_nil (joinBy_ne_nil _ _ _)]) hroom
    (show [].length + gs.length < (prog :: w :: ws).length + 1 by rw [List.length_nil]; omega)
  rw [List.nil_append, List.nil_append, List.nil_append] at hloop
  have hargv := argv_stringBytes (joinBy_notMem endsComma hws) hslots
    (List.replicate (m - (stringBytes gs).length) 0) prog
  rw [← hgs] at hargv
  rw [ipfwJoin, show (prog :: w :: ws).length - 1 = ws.length + 1 from rfl]
  simp only [← hl, ← hm, hloop, Option.bind_eq_bind, Option.bind_some, List.getD_cons_zero, hargv]
  rfl

end Join

/-! ### The comparison -/

/-- The groups of a string, without the comma that may be lost. -/
theorem squeezed_eq (w : List (BitVec 8)) (ws : List (List (BitVec 8))) :
    (squeezed (w :: ws)).length = (joinBy joins (w :: ws)).length ∧
      (joins ((w :: ws).getLast (by simp)) = false →
        squeezed (w :: ws) = joinBy joins (w :: ws)) := by
  induction ws generalizing w with
  | nil =>
    refine ⟨rfl, fun h => ?_⟩
    rw [List.getLast_singleton] at h
    rw [squeezed, joinBy, if_neg (by simp [h])]
  | cons w' ws ih =>
    obtain ⟨hlen, heq⟩ := ih w'
    have hne := joinBy_ne_nil joins w' ws
    have hne' : squeezed (w' :: ws) ≠ [] := by
      rw [← List.length_pos_iff, hlen, List.length_pos_iff]
      exact hne
    rw [squeezed, joinBy]
    constructor
    · split_ifs
      · rw [length_prepend w hne', length_prepend w hne, hlen]
      · rw [List.length_cons, List.length_cons, hlen]
    · intro h
      rw [List.getLast_cons (by simp)] at h
      rw [heq h]

/-- Where more words are joined there are fewer groups, and as many only if the same are joined. -/
theorem length_joinBy_le {p q : List (BitVec 8) → Bool} (w : List (BitVec 8))
    (ws : List (List (BitVec 8))) (hpq : ∀ v ∈ w :: ws, p v = true → q v = true) :
    (joinBy q (w :: ws)).length ≤ (joinBy p (w :: ws)).length ∧
      ((joinBy p (w :: ws)).length = (joinBy q (w :: ws)).length ↔
        ∀ v ∈ (w :: ws).dropLast, q v = true → p v = true) ∧
      ((∀ v ∈ (w :: ws).dropLast, q v = true → p v = true) →
        joinBy p (w :: ws) = joinBy q (w :: ws)) := by
  induction ws generalizing w with
  | nil => exact ⟨le_rfl, by simp [joinBy], fun _ => rfl⟩
  | cons w' ws ih =>
    obtain ⟨hle, hiff, heq⟩ := ih w' fun v hv => hpq v (List.mem_cons_of_mem _ hv)
    have hp := length_prepend w (joinBy_ne_nil p w' ws)
    have hq := length_prepend w (joinBy_ne_nil q w' ws)
    have hw := hpq w List.mem_cons_self
    rw [joinBy, joinBy, List.dropLast_cons_of_ne_nil (by simp), List.forall_mem_cons, ← hiff]
    cases hpw : p w <;> cases hqw : q w
    · simp only [Bool.false_eq_true, if_false, List.length_cons]
      exact ⟨by omega, by simp, fun h => by rw [heq (hiff.1 h.2)]⟩
    · simp only [Bool.false_eq_true, if_false, if_true, List.length_cons, hq]
      refine ⟨by omega, ?_, ?_⟩
      · simp only [imp_false, not_true_eq_false, false_and, iff_false]
        omega
      · simp
    · rw [hpw, hqw] at hw
      simp at hw
    · simp only [if_true, hp, hq]
      exact ⟨hle, by simp, fun h => by rw [heq (hiff.1 h.2)]⟩

theorem flatten_prepend (w : List (BitVec 8)) (gs : List (List (BitVec 8))) :
    (prepend w gs).flatten = w ++ gs.flatten := by
  cases gs <;> simp [prepend]

theorem flatten_joinBy (p : List (BitVec 8) → Bool) (ws : List (List (BitVec 8))) :
    (joinBy p ws).flatten = ws.flatten := by
  induction ws with
  | nil => rfl
  | cons w ws ih =>
    cases ws with
    | nil => rfl
    | cons w' ws =>
      rw [joinBy]
      split_ifs
      · rw [flatten_prepend]
        exact congrArg (w ++ ·) ih
      · exact congrArg (w ++ ·) ih

/-- A comma that joins at the end is lost. -/
theorem length_flatten_squeezed (w : List (BitVec 8)) (ws : List (List (BitVec 8)))
    (hne : ∀ v ∈ w :: ws, v ≠ []) (h : joins ((w :: ws).getLast (by simp)) = true) :
    (squeezed (w :: ws)).flatten.length + 1 = (w :: ws).flatten.length := by
  induction ws generalizing w with
  | nil =>
    rw [List.getLast_singleton] at h
    have hpos := List.length_pos_iff.2 (hne w List.mem_cons_self)
    rw [squeezed, if_pos h]
    simp only [List.flatten_cons, List.flatten_nil, List.append_nil, List.length_dropLast]
    omega
  | cons w' ws ih =>
    rw [List.getLast_cons (by simp)] at h
    have hrest := ih w' (fun v hv => hne v (List.mem_cons_of_mem _ hv)) h
    have hflat : (w :: w' :: ws).flatten = w ++ (w' :: ws).flatten := rfl
    rw [squeezed, hflat, List.length_append]
    split_ifs
    · rw [flatten_prepend, List.length_append]
      omega
    · rw [List.flatten_cons, List.length_append]
      omega

/-- The groups are the same. -/
theorem squeezed_eq_iff (w : List (BitVec 8)) (ws : List (List (BitVec 8)))
    (hne : ∀ v ∈ w :: ws, v ≠ []) :
    squeezed (w :: ws) = joinBy endsComma (w :: ws) ↔
      (∀ v ∈ (w :: ws).dropLast, endsComma v = true → joins v = true) ∧
        joins ((w :: ws).getLast (by simp)) = false := by
  obtain ⟨hlen, heq⟩ := squeezed_eq w ws
  obtain ⟨-, hiff, hsame⟩ := length_joinBy_le w ws fun v hv hj => (joins_imp (hne v hv) hj).1
  constructor
  · intro h
    refine ⟨hiff.1 (by rw [← hlen, h]), ?_⟩
    by_contra hlast
    have hlost := length_flatten_squeezed w ws hne (by simpa using hlast)
    rw [h, flatten_joinBy] at hlost
    omega
  · rintro ⟨hjoin, hlast⟩
    rw [heq hlast, hsame hjoin]

/-- **A command as one string and as several arguments.** Nothing is written outside the blocks,
and the arrays are the same if and only if every word but the last one that ends with a comma joins,
and the last word does not. -/
theorem sameArgs_iff (prog : List (BitVec 8)) (lead trail : Blanks) (w : Word) (p : Sep × Word)
    (ps : List (Sep × Word)) :
    (∃ argv, ipfwMainArgs [prog, commandLine lead w (p :: ps) trail] = some (some argv) ∧
      ipfwMainArgs (prog :: w.chars :: (p :: ps).map (·.2.chars)) = some (some argv)) ↔
    (∀ v ∈ (w.chars :: (p :: ps).map (·.2.chars)).dropLast,
        endsComma v = true → joins v = true) ∧
      joins ((w.chars :: (p :: ps).map (·.2.chars)).getLast (by simp)) = false := by
  have hwords : ∀ v ∈ w.chars :: (p :: ps).map (·.2.chars), ∃ u : Word, u.chars = v := by
    rw [List.forall_mem_cons, List.forall_mem_map]
    exact ⟨⟨w, rfl⟩, fun q _ => ⟨q.2, rfl⟩⟩
  have hne : ∀ v ∈ w.chars :: (p :: ps).map (·.2.chars), v ≠ [] := fun v hv => by
    obtain ⟨u, rfl⟩ := hwords v hv
    exact u.ne_nil
  have hzero : ∀ v ∈ w.chars :: (p :: ps).map (·.2.chars), 0 ∉ v := fun v hv h0 => by
    obtain ⟨u, rfl⟩ := hwords v hv
    exact isWordChar_ne_zero (u.word 0 h0) rfl
  have hsplit : ipfwMainArgs [prog, commandLine lead w (p :: ps) trail] = _ :=
    ipfwSplit_eq prog lead w (p :: ps) trail
  have hjoin := ipfwJoin_eq prog w.chars ((p :: ps).map (·.2.chars)) hzero
  have hmain : ipfwMainArgs (prog :: w.chars :: (p :: ps).map (·.2.chars)) =
      ipfwJoin (prog :: w.chars :: (p :: ps).map (·.2.chars)) := rfl
  rw [← squeezed_eq_iff w.chars ((p :: ps).map (·.2.chars)) hne, hsplit, hmain, hjoin]
  constructor
  · rintro ⟨argv, h1, h2⟩
    have := h1.trans h2.symm
    simpa using this
  · intro h
    exact ⟨_, rfl, by rw [h]⟩

/-- A word of one character. -/
def exampleWord (c : BitVec 8) (h : strchr whitesp c = false ∧ c ≠ hashMark) : Word :=
  ⟨[c], by simp, by simpa [IsWordChar] using h⟩

/-- One blank. -/
def exampleSep : Sep := ⟨⟨[32], by simp [whitesp]⟩, by simp⟩

/-- The command `a , b`. -/
theorem not_sameArgs : ¬ ∃ argv,
    ipfwMainArgs [[112], commandLine ⟨[], by simp⟩ (exampleWord 97 (by decide))
      [(exampleSep, exampleWord 44 (by decide)), (exampleSep, exampleWord 98 (by decide))]
      ⟨[], by simp⟩] = some (some argv) ∧
    ipfwMainArgs [[112], [97], [44], [98]] = some (some argv) := by
  rintro ⟨argv, h1, h2⟩
  have hne : ipfwMainArgs [[112], commandLine ⟨[], by simp⟩ (exampleWord 97 (by decide))
      [(exampleSep, exampleWord 44 (by decide)), (exampleSep, exampleWord 98 (by decide))]
      ⟨[], by simp⟩] ≠ ipfwMainArgs [[112], [97], [44], [98]] := by
    decide +kernel
  exact hne (h1.trans h2.symm)

end Dummynet.Tool
