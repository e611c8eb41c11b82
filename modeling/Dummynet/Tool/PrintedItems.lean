import Dummynet.Tool.CommandNumbers
import Dummynet.Tool.Operands

/-!
# Printed numbers and flags

A number that is printed in decimal or hexadecimal digits is read as it was, if no letter or digit
follows it. Ports, ICMP types and flags are lists of such items, and are printed as they are read.

## Main results

* `scanNumber_printNumber`: a printed number is read back, with the text after it.
* `fillNewports_printNewports`, `fillIcmptypes_printIcmptypes`, `readFlags_printFlags`: lists of
  ports, types and flags.
-/

namespace Dummynet.Tool

/-! ### Printed numbers -/

/-- The text does not go on with a letter or a digit. -/
def NotDigit (t : List Char) : Prop := ∀ c ∈ t.head?, digitValue c = 36

variable {f n m : ℕ} {s t : List Char} {c : Char}

theorem digitValue_digitChar (h : n < 16) : digitValue (Nat.digitChar n) = n := by
  have hall : ∀ k : Fin 16, digitValue (Nat.digitChar k) = k := by decide
  exact hall ⟨n, h⟩

theorem NotDigit.scanDigits {base : ℕ} (hbase : base ≤ 36) (ht : NotDigit t) :
    scanDigits base t n = (n, t) := by
  cases t with
  | nil => rfl
  | cons c t =>
    unfold Tool.scanDigits
    rw [if_neg]
    rw [ht c rfl]
    omega

theorem scanDigits_digitsOf (h : n < f) :
    scanDigits 10 (digitsOf f n ++ t) 0 = scanDigits 10 t n := by
  induction f generalizing n t with
  | zero => omega
  | succ f ih =>
    have hlast (k : ℕ) : scanDigits 10 (Nat.digitChar (n % 10) :: t) k =
        scanDigits 10 t (k * 10 + n % 10) := by
      rw [scanDigits, digitValue_digitChar (by omega), if_pos (by omega)]
    unfold digitsOf
    rw [List.append_assoc, List.singleton_append]
    split_ifs with hn
    · rw [List.nil_append, hlast]
      congr 1
      omega
    · rw [ih (by omega), hlast]
      congr 1
      omega

theorem digitsOf_head (hf : n < f) (hn : 0 < n) :
    ∃ c u, digitsOf f n = c :: u ∧ c ≠ '0' ∧ c.isDigit = true := by
  induction f generalizing n with
  | zero => omega
  | succ f ih =>
    unfold digitsOf
    split_ifs with h
    · refine ⟨Nat.digitChar n, [], by rw [Nat.mod_eq_of_lt h]; rfl, ?_, ?_⟩
      · rw [Ne, Nat.digitChar_eq_zero]
        omega
      · rw [Nat.isDigit_digitChar]
        exact decide_eq_true h
    · obtain ⟨c, u, hcu, hc, hd⟩ := ih (n := n / 10) (by omega) (by omega)
      exact ⟨c, u ++ [Nat.digitChar (n % 10)], by rw [hcu]; rfl, hc, hd⟩

theorem printNumber_head (n : ℕ) : ∃ c u, printNumber n = c :: u ∧ c.isDigit = true := by
  rcases Nat.eq_zero_or_pos n with rfl | hn
  · exact ⟨'0', [], rfl, rfl⟩
  · obtain ⟨c, u, h, -, hd⟩ := digitsOf_head (Nat.lt_succ_self n) hn
    exact ⟨c, u, h, hd⟩

theorem scanUnsigned_printNumber (n : ℕ) (ht : NotDigit t) :
    scanUnsigned (printNumber n ++ t) = some (n, t) := by
  rcases Nat.eq_zero_or_pos n with rfl | hn
  · have hscan : scanDigits 8 t 0 = (0, t) := ht.scanDigits (by decide)
    change scanUnsigned ('0' :: t) = _
    rcases t with _ | ⟨x, _ | ⟨c, cs⟩⟩
    · rfl
    · change some (scanDigits 8 [x] 0) = _
      rw [hscan]
    · have hx : ¬ ((x = 'x' ∨ x = 'X') ∧ digitValue c < 16) := by
        rintro ⟨rfl | rfl, -⟩
        · exact absurd (ht _ rfl) (by decide)
        · exact absurd (ht _ rfl) (by decide)
      change (if (x = 'x' ∨ x = 'X') ∧ digitValue c < 16 then some (scanDigits 16 (c :: cs) 0)
        else some (scanDigits 8 (x :: c :: cs) 0)) = _
      rw [if_neg hx, hscan]
  · obtain ⟨c, u, h, hc, hd⟩ := digitsOf_head (Nat.lt_succ_self n) hn
    have hscan := scanDigits_digitsOf (t := t) (Nat.lt_succ_self n)
    unfold printNumber
    rw [h] at hscan ⊢
    rw [ht.scanDigits (by decide)] at hscan
    have hvalue : digitValue c < 10 := by
      unfold digitValue
      rw [if_pos hd]
      have hc := Char.isDigit_iff_toNat.1 hd
      change 48 ≤ c.toNat ∧ c.toNat ≤ 57 at hc
      change c.toNat - 48 < 10
      omega
    rw [List.cons_append] at hscan ⊢
    rw [scanUnsigned.eq_3 _ _ (fun _ _ _ h _ => hc h) hc, if_pos hvalue, hscan]

theorem isDigit_cases (h : c.isDigit = true) : c.isWhitespace = false ∧ c ≠ '-' ∧ c ≠ '+' := by
  have hc := Char.isDigit_iff_toNat.1 h
  change 48 ≤ c.toNat ∧ c.toNat ≤ 57 at hc
  refine ⟨?_, ?_, ?_⟩
  · rw [Bool.eq_false_iff]
    intro hw
    have hsmall : c.toNat ≤ 32 := by
      simp only [Char.isWhitespace, Bool.or_eq_true, decide_eq_true_eq] at hw
      rcases hw with ((rfl | rfl) | rfl) | rfl <;> decide
    omega
  · rintro rfl
    revert hc
    decide
  · rintro rfl
    revert hc
    decide

/-- A text that starts with a digit has no sign. -/
theorem scanNumber_digit {u : List Char} (hd : c.isDigit)
    (h : scanUnsigned (c :: s) = some (n, u)) : scanNumber (c :: s) = ((n : ℤ), u) := by
  obtain ⟨hw, hminus, hplus⟩ := isDigit_cases hd
  unfold scanNumber
  rw [List.dropWhile_cons_of_neg (by rw [hw]; decide)]
  split
  · exact absurd (List.cons.inj (by assumption)).1 hminus
  · exact absurd (List.cons.inj (by assumption)).1 hplus
  · rw [h]

theorem scanNumber_printNumber (n : ℕ) (ht : NotDigit t) :
    scanNumber (printNumber n ++ t) = ((n : ℤ), t) := by
  obtain ⟨c, u, h, hd⟩ := printNumber_head n
  have hscan := scanUnsigned_printNumber n ht
  rw [h, List.cons_append] at hscan ⊢
  exact scanNumber_digit hd hscan

theorem startsDigit_printNumber (n : ℕ) : startsDigit (printNumber n ++ t) = true := by
  obtain ⟨c, u, h, hd⟩ := printNumber_head n
  rw [h]
  exact hd


theorem notDigit_nil : NotDigit [] := fun c hc => by cases hc

theorem notDigit_cons (h : digitValue c = 36) : NotDigit (c :: t) := by
  intro d hd
  rwa [← Option.some.inj hd]

theorem length_joinItems (l : List (List Char)) : l.length ≤ (joinItems l).length + 1 := by
  induction l using joinItems.induct with
  | case1 => exact Nat.zero_le _
  | case2 a => exact Nat.le_add_left _ _
  | case3 a b l ih =>
    unfold joinItems
    rw [List.length_append, List.length_cons,
      show (',' :: joinItems (b :: l)).length = (joinItems (b :: l)).length + 1 from rfl]
    omega

/-! ### Ports -/

variable {lookup : List Char → Option (BitVec 16)} {ether : Bool}

theorem scanNumber_printHex (x : BitVec 16) (ht : NotDigit t) :
    scanNumber (printHex x ++ t) = ((x.toNat : ℤ), t) := by
  have hx := x.isLt
  have hstep (d k : ℕ) (u : List Char) (hd : d < 16) :
      scanDigits 16 (Nat.digitChar d :: u) k = scanDigits 16 u (k * 16 + d) := by
    rw [scanDigits, digitValue_digitChar hd, if_pos hd]
  have hscan : scanUnsigned (printHex x ++ t) = some (x.toNat, t) := by
    change (if ('x' = 'x' ∨ 'x' = 'X') ∧ digitValue (Nat.digitChar (x.toNat / 4096)) < 16
      then some (scanDigits 16 (Nat.digitChar (x.toNat / 4096) ::
        Nat.digitChar (x.toNat / 256 % 16) :: Nat.digitChar (x.toNat / 16 % 16) ::
        Nat.digitChar (x.toNat % 16) :: t) 0) else _) = _
    rw [if_pos ⟨.inl rfl, by rw [digitValue_digitChar (by omega)]; omega⟩]
    rw [hstep _ _ _ (by omega), hstep _ _ _ (by omega), hstep _ _ _ (by omega),
      hstep _ _ _ (by omega), ht.scanDigits (by decide)]
    congr 2
    omega
  exact scanNumber_digit (c := '0') rfl hscan

theorem strtoport_printPort (p : BitVec 16) (ht : NotDigit t) :
    strtoport lookup (printPort ether p ++ t) = some (.number p.toNat, t) := by
  unfold strtoport printPort
  cases ether with
  | true =>
    rw [if_pos rfl, if_pos (show startsDigit (printHex p ++ t) = true from rfl),
      scanNumber_printHex p ht]
  | false =>
    rw [if_neg Bool.false_ne_true, if_pos (startsDigit_printNumber _),
      scanNumber_printNumber _ ht]

/-- The token of a port. -/
def portToken (p : BitVec 16) : PortToken := .number p.toNat

theorem store_portToken (p : BitVec 16) : (portToken p).store = p := by
  apply BitVec.eq_of_toNat_eq
  have h := (inWidth_toNat p).narrow (by decide)
  exact_mod_cast h

/-- A round over a printed range. -/
theorem portsLoop_range (p : BitVec 16 × BitVec 16) :
    portsLoop lookup (n + 1) (printRange ether p) = some [(portToken p.1, portToken p.2)] ∧
    portsLoop lookup (n + 1) (printRange ether p ++ ',' :: t) =
      (portsLoop lookup n t).map ((portToken p.1, portToken p.2) :: ·) := by
  have hnil := notDigit_nil
  have hcomma : NotDigit (',' :: t) := notDigit_cons (by decide)
  unfold printRange
  split_ifs with hne
  · have hminus (u : List Char) : NotDigit ('-' :: u) := notDigit_cons (by decide)
    have hlast : strtoport lookup (printPort ether p.2 ++ []) = some (.number p.2.toNat, []) :=
      strtoport_printPort p.2 hnil
    rw [List.append_nil] at hlast
    constructor
    · rw [portsLoop, strtoport_printPort p.1 (hminus _)]
      simp [hlast, portToken]
    · rw [portsLoop, List.append_assoc, List.cons_append, strtoport_printPort p.1 (hminus _)]
      simp [strtoport_printPort p.2 hcomma, portToken]
  · have heq : p.1 = p.2 := not_not.1 hne
    have hlast : strtoport lookup (printPort ether p.1 ++ []) = some (.number p.1.toNat, []) :=
      strtoport_printPort p.1 hnil
    rw [List.append_nil] at hlast
    constructor
    · rw [portsLoop, hlast]
      simp [portToken, heq]
    · rw [portsLoop, strtoport_printPort p.1 hcomma]
      simp [portToken, heq]

theorem portsLoop_joinItems {l : List (BitVec 16 × BitVec 16)} (hl : l ≠ []) (hn : l.length ≤ n) :
    portsLoop lookup n (joinItems (l.map (printRange ether))) =
      some (l.map fun p => (portToken p.1, portToken p.2)) := by
  induction l generalizing n with
  | nil => exact absurd rfl hl
  | cons p l ih =>
    rw [List.length_cons] at hn
    obtain ⟨n, rfl⟩ : ∃ k, n = k + 1 := ⟨n - 1, by omega⟩
    rcases l with _ | ⟨q, l⟩
    · exact (portsLoop_range (t := []) p).1
    · change portsLoop lookup (n + 1) (printRange ether p ++
        ',' :: joinItems ((q :: l).map (printRange ether))) = _
      rw [(portsLoop_range p).2, ih (List.cons_ne_nil q l) (by omega)]
      rfl

/-- Ports are printed as they are read. -/
theorem fillNewports_printNewports {l : List (BitVec 16 × BitVec 16)}
    (h : fillNewports lookup s = some l) :
    fillNewports lookup (printNewports ether l) = some l := by
  obtain ⟨ts, hts, h⟩ := Option.bind_eq_some_iff.1 h
  obtain ⟨hlen, h⟩ := Option.ite_none_left_eq_some.1 h
  obtain rfl := Option.some.inj h
  have hne : ts ≠ [] := by
    rintro rfl
    unfold parsePorts portsLoop at hts
    split at hts
    · split at hts
      · cases hts
      · obtain ⟨u, -, hu⟩ := Option.map_eq_some_iff.1 hts
        cases hu
      · cases hts
    · cases hts
    · obtain ⟨u, -, hu⟩ := Option.map_eq_some_iff.1 hts
      cases hu
    · cases hts
  generalize hl : ts.map (fun p => (p.1.store, p.2.store)) = l
  have hlen' : l.length = ts.length := by rw [← hl, List.length_map]
  have hparse : parsePorts lookup (printNewports ether l) =
      some (l.map fun p => (portToken p.1, portToken p.2)) := by
    refine portsLoop_joinItems ?_ ?_
    · rintro rfl
      exact hne (List.length_eq_zero_iff.1 hlen'.symm)
    · have h := length_joinItems (l.map (printRange ether))
      rwa [List.length_map] at h
  unfold fillNewports
  rw [hparse, Option.bind_some, List.length_map, hlen', if_neg hlen, List.map_map]
  congr 1
  refine (List.map_congr_left fun p _ => ?_).trans (List.map_id l)
  change ((portToken p.1).store, (portToken p.2).store) = p
  rw [store_portToken, store_portToken]

/-! ### Types -/

theorem joinItems_cons (a : List Char) (l : List (List Char)) :
    joinItems (a :: l) = a ++ l.flatMap (',' :: ·) := by
  induction l generalizing a with
  | nil => exact (List.append_nil a).symm
  | cons b l ih =>
    rw [joinItems, ih b, List.flatMap_cons]
    rfl

theorem notDigit_items (l : List (List Char)) : NotDigit (l.flatMap (',' :: ·)) := by
  cases l with
  | nil => exact notDigit_nil
  | cons a l => exact notDigit_cons (by decide)

theorem printNumber_head_ne (hc : c.isDigit = false) : (printNumber n ++ t).head? ≠ some c := by
  obtain ⟨d, u, h, hd⟩ := printNumber_head n
  rw [h]
  intro heq
  rw [← Option.some.inj heq, hd] at hc
  cases hc

theorem typesLoop_number (l : List (List Char)) :
    typesLoop (m + 1) (printNumber n ++ l.flatMap (',' :: ·)) =
        (typesLoop m (l.flatMap (',' :: ·))).map ((n : ℤ) :: ·) ∧
      typesLoop (m + 1) (',' :: (printNumber n ++ l.flatMap (',' :: ·))) =
        (typesLoop m (l.flatMap (',' :: ·))).map ((n : ℤ) :: ·) := by
  have hend : l.flatMap (',' :: ·) = [] ∨ (l.flatMap (',' :: ·)).head? = some ',' := by
    cases l with
    | nil => exact .inl rfl
    | cons a l => exact .inr rfl
  have hscan := scanNumber_printNumber n (notDigit_items l)
  constructor
  · obtain ⟨d, u, h, -⟩ := printNumber_head n
    have hhead := printNumber_head_ne (n := n) (t := l.flatMap (',' :: ·)) (c := ',') (by decide)
    rw [h, List.cons_append] at hscan hhead ⊢
    rw [typesLoop, if_neg hhead, hscan]
    · exact if_pos hend
    · exact List.cons_ne_nil _ _
  · rw [typesLoop, List.head?_cons, if_pos rfl, List.tail_cons, hscan]
    · exact if_pos hend
    · exact List.cons_ne_nil _ _

theorem typesLoop_items (l : List ℕ) (hm : l.length ≤ m) :
    typesLoop m ((l.map printNumber).flatMap (',' :: ·)) = some (l.map fun k : ℕ => (k : ℤ)) := by
  induction l generalizing m with
  | nil =>
    cases m with
    | zero => rfl
    | succ m => rfl
  | cons k l ih =>
    rw [List.length_cons] at hm
    obtain ⟨m, rfl⟩ : ∃ i, m = i + 1 := ⟨m - 1, by omega⟩
    rw [List.map_cons, List.flatMap_cons, List.cons_append, (typesLoop_number _).2, ih (by omega)]
    rfl

theorem parseTypes_printed (l : List ℕ) :
    parseTypes (joinItems (l.map printNumber)) = some (l.map fun k : ℕ => (k : ℤ)) := by
  unfold parseTypes
  cases l with
  | nil => rfl
  | cons k l =>
    have hlen := length_joinItems ((k :: l).map printNumber)
    rw [List.length_map, List.length_cons] at hlen
    generalize hfuel : (joinItems ((k :: l).map printNumber)).length = f at hlen
    rw [List.map_cons, joinItems_cons, (typesLoop_number _).1, typesLoop_items l (by omega)]
    rfl

/-- Types are printed as they are read. -/
theorem fillIcmptypes_printIcmptypes (d : BitVec 32) :
    fillIcmptypes (printIcmptypes d) = some d := by
  have htype (k : ℕ) (hk : k < 32) : typeOf k = k := by
    have h : (typeOf k : ℤ) = k := InWidth.unsigned (w := 8) ⟨by omega, by omega⟩ (by decide)
    exact_mod_cast h
  have hmem (k : ℕ) : k ∈ typesOf d ↔ k < 32 ∧ d.getLsbD k := by
    unfold typesOf
    rw [List.mem_filter, List.mem_range]
  have hmap : (typesOf d).map (fun k : ℕ => typeOf (k : ℤ)) = typesOf d :=
    (List.map_congr_left fun k hk => htype k ((hmem k).1 hk).1).trans (List.map_id _)
  change (parseTypes (printIcmptypes d)).bind _ = _
  unfold printIcmptypes
  rw [parseTypes_printed, Option.bind_some, List.map_map, if_pos]
  · congr 1
    change setBits 32 ((typesOf d).map fun k : ℕ => typeOf (k : ℤ)) = d
    rw [hmap]
    refine BitVec.eq_of_getLsbD_eq fun i hi => Bool.eq_iff_iff.2 ?_
    rw [setBits_spec, hmem]
    exact ⟨fun h => h.2.2, fun h => ⟨hi, hi, h⟩⟩
  · rw [List.all_map, List.all_eq_true]
    intro k hk
    have hlt := ((hmem k).1 hk).1
    change decide (typeOf (k : ℤ) ≤ 31) = true
    rw [htype k hlt]
    exact decide_eq_true (by omega)

/-! ### Flags -/

/-- The flags that are printed for a set. -/
def orPrinted : List (List Char × BitVec 8) → BitVec 8 → BitVec 8
  | [], _ => 0
  | (_, x) :: fs, set => (if set &&& x ≠ 0 then x else 0) |||
    orPrinted fs (if set &&& x ≠ 0 then set &&& ~~~x else set)

/-- The set is printed as it is. -/
def Kept (k : FlagKind) (set : BitVec 8) : Prop := orPrinted k.table set = set

instance (k : FlagKind) : DecidablePred (Kept k) := fun _ => inferInstanceAs (Decidable (_ = _))

variable {k : FlagKind} {r r' : BitVec 8 × BitVec 8} {ps : List (List Char)}

theorem kept_zero : Kept k 0 := by
  cases k <;> decide

theorem kept_or : ∀ p ∈ k.table, ∀ a : BitVec 8, Kept k a → Kept k (a ||| p.2) := by
  cases k <;> decide +kernel

/-- The names of a table are found, and can be told from each other and from their negations. -/
theorem table_names : ∀ p ∈ k.table, k.table.lookup p.1 = some p.2 ∧ p.1 ≠ [] ∧
    p.1.head? ≠ some '!' ∧ ',' ∉ p.1 := by
  cases k <;> decide +kernel

theorem mem_of_lookup {α β : Type*} [BEq α] [LawfulBEq α] {l : List (α × β)} {a : α} {b : β}
    (h : l.lookup a = some b) : ∃ p ∈ l, p.2 = b := by
  induction l with
  | nil => cases h
  | cons p l ih =>
    rw [List.lookup_cons] at h
    split at h
    · exact ⟨p, List.mem_cons_self, Option.some.inj h⟩
    · obtain ⟨q, hq, heq⟩ := ih h
      exact ⟨q, List.mem_cons_of_mem _ hq, heq⟩

theorem flagsLoop_kept (h : flagsLoop k.table ps r = some r') (hset : Kept k r.1)
    (hclear : Kept k r.2) : Kept k r'.1 ∧ Kept k r'.2 := by
  induction ps generalizing r with
  | nil =>
    obtain rfl := Option.some.inj h
    exact ⟨hset, hclear⟩
  | cons p ps ih =>
    unfold flagsLoop at h
    split_ifs at h with hend
    · obtain rfl := Option.some.inj h
      exact ⟨hset, hclear⟩
    split at h
    · obtain ⟨x, hx, h⟩ := Option.bind_eq_some_iff.1 h
      obtain ⟨q, hq, rfl⟩ := mem_of_lookup hx
      exact ih h hset (kept_or q hq _ hclear)
    · obtain ⟨x, hx, h⟩ := Option.bind_eq_some_iff.1 h
      obtain ⟨q, hq, rfl⟩ := mem_of_lookup hx
      exact ih h (kept_or q hq _ hset) hclear

/-- Reading the flags that are printed. -/
theorem flagsLoop_printed {fs : List (List Char × BitVec 8)} (hfs : ∀ p ∈ fs, p ∈ k.table)
    (set clear s c : BitVec 8) :
    flagsLoop k.table (printedFlags fs set clear) (s, c) =
      some (s ||| orPrinted fs set, c ||| orPrinted fs clear) := by
  induction fs generalizing set clear s c with
  | nil => simp [printedFlags, flagsLoop, orPrinted]
  | cons p fs ih =>
    obtain ⟨name, x⟩ := p
    obtain ⟨hlookup, hne, hbang, -⟩ := table_names (name, x) (hfs _ List.mem_cons_self)
    dsimp only at hlookup hne hbang
    have hpos (l : List (List Char)) (s c : BitVec 8) :
        flagsLoop k.table (name :: l) (s, c) = flagsLoop k.table l (s ||| x, c) := by
      rcases name with _ | ⟨d, q⟩
      · exact absurd rfl hne
      · have hd : d ≠ '!' := fun h => hbang (congrArg some h)
        simp [flagsLoop, hd, hlookup]
    have hneg (l : List (List Char)) (s c : BitVec 8) :
        flagsLoop k.table (('!' :: name) :: l) (s, c) = flagsLoop k.table l (s, c ||| x) := by
      simp [flagsLoop, hlookup]
    have hzero (y : BitVec 8) : 0 ||| y = y := BitVec.zero_or
    have hrest := ih fun q hq => hfs q (List.mem_cons_of_mem _ hq)
    unfold printedFlags orPrinted
    by_cases hset : set &&& x ≠ 0 <;> by_cases hclear : clear &&& x ≠ 0
    · simp only [if_pos hset, if_pos hclear, List.cons_append, List.nil_append]
      rw [hpos, hneg, hrest, BitVec.or_assoc, BitVec.or_assoc]
    · simp only [if_pos hset, if_neg hclear, List.cons_append, List.nil_append]
      rw [hpos, hrest, BitVec.or_assoc, hzero]
    · simp only [if_neg hset, if_pos hclear, List.cons_append, List.nil_append]
      rw [hneg, hrest, BitVec.or_assoc, hzero]
    · simp only [if_neg hset, if_neg hclear, List.nil_append]
      rw [hrest, hzero, hzero]

theorem joinItems_eq (l : List (List Char)) : joinItems l = [','].intercalate l := by
  induction l using joinItems.induct with
  | case1 => rfl
  | case2 a => simp [joinItems]
  | case3 a b l ih => rw [joinItems, ih]; simp [List.intercalate]

theorem mem_printedFlags {fs : List (List Char × BitVec 8)} {set clear : BitVec 8} {a : List Char}
    (ha : a ∈ printedFlags fs set clear) : ∃ p ∈ fs, a = p.1 ∨ a = '!' :: p.1 := by
  induction fs generalizing set clear with
  | nil => cases ha
  | cons p fs ih =>
    obtain ⟨name, x⟩ := p
    unfold printedFlags at ha
    rw [List.mem_append, List.mem_append] at ha
    rcases ha with (ha | ha) | ha
    · split_ifs at ha
      · exact ⟨_, List.mem_cons_self, .inl (List.mem_singleton.1 ha)⟩
      · cases ha
    · split_ifs at ha
      · exact ⟨_, List.mem_cons_self, .inr (List.mem_singleton.1 ha)⟩
      · cases ha
    · obtain ⟨q, hq, heq⟩ := ih ha
      exact ⟨q, List.mem_cons_of_mem _ hq, heq⟩

/-- Flags are printed as they are read, if `setup` is read as an option. -/
theorem readFlags_printFlags (h : fillFlags k s = some r) :
    readFlags k (printFlags k r) = some r := by
  obtain ⟨hset, hclear⟩ := flagsLoop_kept h kept_zero kept_zero
  unfold printFlags
  split_ifs with hsetup
  · rw [hsetup.2]
    rfl
  · change flagsLoop k.table _ (0, 0) = _
    have hread := flagsLoop_printed (k := k) (fun p hp => hp) r.1 r.2 0 0
    have hzero (y : BitVec 8) : 0 ||| y = y := BitVec.zero_or
    rw [hzero, hzero, show orPrinted k.table r.1 = r.1 from hset,
      show orPrinted k.table r.2 = r.2 from hclear] at hread
    by_cases hnil : printedFlags k.table r.1 r.2 = []
    · rw [hnil] at hread ⊢
      exact hread
    · rw [joinItems_eq, List.splitOn_intercalate]
      · exact hread
      · intro a ha hcomma
        obtain ⟨p, hp, rfl | rfl⟩ := mem_printedFlags ha
        · exact (table_names p hp).2.2.2 hcomma
        · refine (table_names p hp).2.2.2 ((List.mem_cons.1 hcomma).resolve_left (by decide))
      · exact hnil

end Dummynet.Tool
