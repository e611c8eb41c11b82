import Dummynet.Tool.PrintedItems

/-!
# Printed addresses

Masks are printed by their length if they have one. A list of addresses is printed as it is read,
but a list of IPv6 with nothing but one single address, which is left of a list with an entry for
any address, is read as a single address.

## Main results

* `contigmask_maskOf`, `eq_maskOf`: the masks that have a length.
* `ipLoop_joinItems`: a list of addresses is read back.
* `fillIp6_printIp6`: the instructions for IPv6 that are read back.
-/

namespace Dummynet.Tool

variable {f n m : ℕ} {s t : List Char} {c : Char}

/-! ### Masks -/

variable {w : ℕ}

theorem getMsbD_maskOf {i : ℕ} (hn : n ≤ w) : (maskOf w n).getMsbD i ↔ i < n := by
  unfold maskOf
  rw [BitVec.getMsbD_shiftLeft, BitVec.getMsbD_allOnes, decide_eq_true_eq]
  omega

theorem contigmask_maskOf (hn : n ≤ w) : contigmask (maskOf w n) = some n := by
  obtain ⟨d, rfl⟩ := Nat.exists_eq_add_of_le hn
  have htake : ((List.range (n + d)).takeWhile fun k => (maskOf (n + d) n).getMsbD k).length =
      n := by
    rw [List.range_add, List.takeWhile_append_of_pos fun k hk =>
      (getMsbD_maskOf hn).2 (List.mem_range.1 hk)]
    have hrest : ((List.range d).map (n + ·)).takeWhile
        (fun k => (maskOf (n + d) n).getMsbD k) = [] := by
      cases d with
      | zero => rfl
      | succ d =>
        rw [List.range_succ_eq_map, List.map_cons, List.takeWhile_cons_of_neg]
        rw [getMsbD_maskOf hn]
        exact lt_irrefl n
    rw [hrest, List.append_nil, List.length_range]
  unfold contigmask
  dsimp only
  rw [htake, if_neg]
  rw [List.any_eq_true]
  rintro ⟨k, hk, hbit⟩
  obtain ⟨i, hi, rfl⟩ := List.mem_iff_getElem.1 hk
  rw [getMsbD_maskOf hn, List.getElem_drop, List.getElem_range] at hbit
  omega

theorem eq_maskOf {x : BitVec w} (h : contigmask x = some n) : n ≤ w ∧ x = maskOf w n := by
  unfold contigmask at h
  dsimp only at h
  obtain ⟨hany, h⟩ := Option.ite_none_left_eq_some.1 h
  generalize hl : (List.range w).takeWhile (fun k => x.getMsbD k) = l at hany h
  obtain rfl := Option.some.inj h
  have hle : l.length ≤ w := by
    rw [← hl]
    exact (List.takeWhile_prefix _).length_le.trans_eq List.length_range
  refine ⟨hle, BitVec.eq_of_getMsbD_eq fun k hk => Bool.eq_iff_iff.2 ?_⟩
  rw [getMsbD_maskOf hle]
  have hprefix : l <+: List.range w := hl ▸ List.takeWhile_prefix _
  constructor
  · intro hbit
    by_contra hge
    rcases Nat.eq_or_lt_of_le (not_lt.1 hge) with heq | hlt
    · have hdrop : (List.range w).dropWhile (fun k => x.getMsbD k) =
          (List.range w).drop l.length := by
        rw [← hl]
        conv_rhs => rw [← List.takeWhile_append_dropWhile (p := fun k => x.getMsbD k)
          (l := List.range w)]
        rw [List.drop_left']
        rw [List.takeWhile_append_dropWhile]
      have hne : (List.range w).dropWhile (fun k => x.getMsbD k) ≠ [] := by
        rw [hdrop, Ne, List.drop_eq_nil_iff, List.length_range]
        omega
      have hhead := List.head_dropWhile_not (fun k => x.getMsbD k) hne
      simp only [hdrop, List.head_drop, List.getElem_range, heq, hbit] at hhead
      cases hhead
    · refine hany (List.any_eq_true.2 ⟨k, ?_, hbit⟩)
      refine List.mem_iff_getElem.2 ⟨k - (l.length + 1), ?_, ?_⟩
      · rw [List.length_drop, List.length_range]
        omega
      · rw [List.getElem_drop, List.getElem_range]
        omega
  · intro hlt
    have hmem : k ∈ l := by
      have hget := hprefix.getElem hlt
      rw [List.getElem_range] at hget
      rw [← hget]
      exact List.getElem_mem hlt
    rw [← hl] at hmem
    exact List.all_eq_true.1 List.all_takeWhile k hmem

/-! ### Separators -/

/-- The text is cut at the first separator. -/
theorem strpbrk_eq {p a t : List Char} (ha : ∀ c ∈ a, c ∉ p) (ht : ∀ c ∈ t.head?, c ∈ p) :
    strpbrk p (a ++ t) = (a, t) := by
  unfold strpbrk
  rw [List.span_eq_takeWhile_dropWhile,
    List.takeWhile_append_of_pos (fun c hc => decide_eq_true (ha c hc)),
    List.dropWhile_append_of_pos (fun c hc => decide_eq_true (ha c hc))]
  cases t with
  | nil => simp
  | cons c t =>
    have hc := ht c rfl
    rw [List.takeWhile_cons_of_neg (by simpa using hc),
      List.dropWhile_cons_of_neg (by simpa using hc), List.append_nil]

theorem digits_digitsOf (h : n < f) : digits (digitsOf f n) = n := by
  induction f generalizing n with
  | zero => omega
  | succ f ih =>
    have hdigit : (Nat.digitChar (n % 10)).toNat - '0'.toNat = n % 10 :=
      Nat.toNat_digitChar_sub_48_of_lt_ten (by omega)
    unfold digitsOf digits
    rw [List.foldl_append]
    split_ifs with hn
    · change 10 * 0 + ((Nat.digitChar (n % 10)).toNat - '0'.toNat) = n
      omega
    · change 10 * digits (digitsOf f (n / 10)) + ((Nat.digitChar (n % 10)).toNat - '0'.toNat) = n
      rw [ih (by omega)]
      omega

theorem isDigit_of_mem_digitsOf (h : c ∈ digitsOf f n) : c.isDigit = true := by
  induction f generalizing n with
  | zero => cases h
  | succ f ih =>
    unfold digitsOf at h
    rw [List.mem_append, List.mem_singleton] at h
    rcases h with h | rfl
    · split_ifs at h
      · cases h
      · exact ih h
    · rw [Nat.isDigit_digitChar]
      exact decide_eq_true (by omega)

theorem atoi_printNumber (n : ℕ) : atoi (printNumber n) = n := by
  obtain ⟨c, u, h, hd⟩ := printNumber_head n
  obtain ⟨hw, hminus, hplus⟩ := isDigit_cases hd
  have hall : ∀ c ∈ printNumber n, c.isDigit = true := fun c hc => isDigit_of_mem_digitsOf hc
  have hvalue : digits (printNumber n) = n := digits_digitsOf (Nat.lt_succ_self n)
  unfold atoi
  rw [h] at hall hvalue ⊢
  rw [List.dropWhile_cons_of_neg (by rw [hw]; decide)]
  split
  · exact absurd (List.cons.inj (by assumption)).1 hminus
  · exact absurd (List.cons.inj (by assumption)).1 hplus
  · rw [← List.append_nil (c :: u), List.takeWhile_append_of_pos hall, List.takeWhile_nil,
      List.append_nil, hvalue]

theorem intOf_small (h : n < 2 ^ 31) : (intOf n).toInt = n := by
  have hval := InWidth.intOf (w := 31) (z := n) ⟨by omega, by exact_mod_cast h⟩ (by decide)
  rw [BitVec.toInt_eq_toNat_of_lt (by omega)]
  exact hval

/-! ### Addresses of IPv6 -/

variable {E : InetEnv} {N : Bool}

/-- The characters of an address of IPv6. -/
def isAddr6Char (c : Char) : Bool :=
  c.isDigit || (decide ('a' ≤ c) && decide (c ≤ 'f')) || c = ':' || c = '.'

/-- The address is printed in its notation, and read again. -/
structure InetEnv.Prints6 (E : InetEnv) (a : BitVec 128) : Prop where
  reads : E.pton6 (E.ntop6 a) = some a
  chars : ∀ c ∈ E.ntop6 a, isAddr6Char c = true

/-- An address with a mask, as it is stored. -/
def Entry6Ok (p : BitVec 128 × BitVec 128) : Prop :=
  ∃ n, 0 < n ∧ n ≤ 128 ∧ p.2 = maskOf 128 n ∧ p.1 &&& p.2 = p.1

/-- What a round of the loop stores. -/
def Ip6Step.Ok : Ip6Step → Prop
  | .done (.list l) => l ≠ [] ∧ 8 * l.length + 1 ≤ 63 ∧ ∀ p ∈ l, Entry6Ok p
  | .done _ => True
  | .more l _ => ∀ p ∈ l, Entry6Ok p

theorem finishIp6_ok {l : List (BitVec 128 × BitVec 128)} {i : Ip6Insn}
    (hl : ∀ p ∈ l, Entry6Ok p) (h : finishIp6 l = some i) : (Ip6Step.done i).Ok := by
  unfold finishIp6 at h
  obtain ⟨hlen, h⟩ := Option.ite_none_left_eq_some.1 h
  split_ifs at h with hnil
  · rw [← Option.some.inj h]
    trivial
  · rw [← Option.some.inj h]
    exact ⟨hnil, not_lt.1 hlen, hl⟩

theorem ip6Entry_ok {l : List (BitVec 128 × BitVec 128)} {a : BitVec 128} {len : ℤ}
    {st : Ip6Step} (hl : ∀ p ∈ l, Entry6Ok p) (h : ip6Entry N l a len s = some st) : st.Ok := by
  unfold ip6Entry at h
  obtain ⟨hlen, h⟩ := Option.ite_none_left_eq_some.1 h
  dsimp only at h
  have hl' : ∀ p ∈ if len = 0 then l else l ++ [(a &&& maskOf 128 len.toNat, maskOf 128 len.toNat)],
      Entry6Ok p := by
    split_ifs with h0
    · exact hl
    · intro p hp
      rcases List.mem_append.1 hp with hp | hp
      · exact hl p hp
      · obtain rfl := List.mem_singleton.1 hp
        refine ⟨len.toNat, by omega, by omega, rfl, ?_⟩
        rw [BitVec.and_assoc, BitVec.and_self]
  cases s with
  | nil =>
    obtain ⟨-, h⟩ := Option.ite_none_left_eq_some.1 h
    by_cases hsingle : len = 128 ∧ l = []
    · rw [if_pos hsingle] at h
      rw [← Option.some.inj h]
      trivial
    · rw [if_neg hsingle] at h
      obtain ⟨i, hi, rfl⟩ := Option.map_eq_some_iff.1 h
      exact finishIp6_ok hl' hi
  | cons c s =>
    rw [← Option.some.inj h]
    exact hl'

theorem ip6Round_ok {l : List (BitVec 128 × BitVec 128)} {st : Ip6Step}
    (hl : ∀ p ∈ l, Entry6Ok p) (h : ip6Round E N l s = some st) : st.Ok := by
  unfold ip6Round at h
  generalize strpbrk ['/', ','] s = q at h
  obtain ⟨name, p⟩ := q
  obtain ⟨a, -, h⟩ := Option.bind_eq_some_iff.1 h
  exact ip6Entry_ok hl h

theorem ip6Loop_ok {l : List (BitVec 128 × BitVec 128)} {i : Ip6Insn}
    (hl : ∀ p ∈ l, Entry6Ok p) (h : ip6Loop E N n l s = some i) : (Ip6Step.done i).Ok := by
  induction n generalizing l s with
  | zero => cases h
  | succ n ih =>
    unfold ip6Loop at h
    cases hr : ip6Round E N l s with
    | none => simp only [hr, reduceCtorEq] at h
    | some st =>
      have hok := ip6Round_ok hl hr
      cases st with
      | done j =>
        simp only [hr, Option.some.injEq] at h
        rwa [← h]
      | more l' av =>
        simp only [hr] at h
        exact ih hok h

theorem fillIp6_ok {i : Ip6Insn} (h : fillIp6 E N s = some i) : (Ip6Step.done i).Ok := by
  unfold fillIp6 at h
  split_ifs at h
  · rw [← Option.some.inj h]
    trivial
  · rw [← Option.some.inj h]
    trivial
  · rw [← Option.some.inj h]
    trivial
  · exact ip6Loop_ok (fun p hp => absurd hp List.not_mem_nil) h

theorem maskOf_full : maskOf w w = BitVec.allOnes w := by
  unfold maskOf
  rw [Nat.sub_self, BitVec.shiftLeft_zero]

/-- The text of an entry is its address, and a length. -/
theorem printEntry6_eq {p : BitVec 128 × BitVec 128} (hn : 0 < n) (hle : n ≤ 128)
    (hm : p.2 = maskOf 128 n) : printEntry6 E p =
      E.ntop6 p.1 ++ if n < 128 then '/' :: printNumber n else [] := by
  unfold printEntry6
  rw [hm, contigmask_maskOf hle]
  obtain ⟨n, rfl⟩ : ∃ k, n = k + 1 := ⟨n - 1, by omega⟩
  change (if n + 1 < 128 then E.ntop6 p.1 ++ '/' :: printNumber (n + 1) else E.ntop6 p.1) = _
  split_ifs
  · rfl
  · exact (List.append_nil _).symm

/-- The length of a printed mask. -/
theorem ip6Length_print (hle : n ≤ 128) (ht : ∀ c ∈ t.head?, c = ',') :
    ip6Length ((if n < 128 then '/' :: printNumber n else []) ++ t) = ((n : ℤ), t) := by
  split_ifs with hlt
  · have hdigits (c : Char) (hc : c ∈ printNumber n) : c ∉ [','] := by
      rintro hmem
      obtain rfl := List.mem_singleton.1 hmem
      exact absurd (isDigit_of_mem_digitsOf hc) (by decide)
    have hcut : strpbrk [','] (printNumber n ++ t) = (printNumber n, t) :=
      strpbrk_eq hdigits fun c hc => List.mem_singleton.2 (ht c hc)
    change ((intOf (atoi (strpbrk [','] (printNumber n ++ t)).1)).toInt,
      (strpbrk [','] (printNumber n ++ t)).2) = _
    rw [hcut, atoi_printNumber, intOf_small (by omega)]
  · obtain rfl : n = 128 := by omega
    cases t with
    | nil => rfl
    | cons c t =>
      obtain rfl := ht c rfl
      rfl

/-- A round over a printed entry. -/
theorem ip6Round_entry {l : List (BitVec 128 × BitVec 128)} {p : BitVec 128 × BitVec 128}
    (hp : Entry6Ok p) (hE : E.Prints6 p.1) :
    ip6Round E N l (printEntry6 E p) =
        (if p.2 = BitVec.allOnes 128 ∧ l = [] then some (.done (.single p.1))
        else (finishIp6 (l ++ [p])).map .done) ∧
      ip6Round E N l (printEntry6 E p ++ ',' :: t) = some (.more (l ++ [p]) t) := by
  obtain ⟨n, hn, hle, hm, hand⟩ := hp
  have hchar (c : Char) (hc : c ∈ E.ntop6 p.1) : c ∉ ['/', ','] := by
    intro hmem
    have h := hE.chars c hc
    rcases List.mem_cons.1 hmem with rfl | hmem
    · revert h
      decide
    · obtain rfl := List.mem_singleton.1 hmem
      revert h
      decide
  have hfull : p.2 = BitVec.allOnes 128 ↔ (n : ℤ) = 128 := by
    constructor
    · intro h
      have hc := contigmask_maskOf hle
      rw [← hm, h, ← maskOf_full, contigmask_maskOf le_rfl] at hc
      exact congrArg Nat.cast (Option.some.inj hc).symm
    · intro h
      obtain rfl : n = 128 := by omega
      rw [hm, maskOf_full]
  have hpair : (p.1 &&& maskOf 128 n, maskOf 128 n) = p := by rw [← hm, hand]
  have hround (u : List Char) (hu : ∀ c ∈ u.head?, c = ',') :
      ip6Round E N l (printEntry6 E p ++ u) = ip6Entry N l p.1 n u := by
    have hseps : ∀ c ∈ ((if n < 128 then '/' :: printNumber n else []) ++ u).head?,
        c ∈ ['/', ','] := by
      split_ifs
      · intro c hc
        obtain rfl := Option.some.inj hc
        decide
      · intro c hc
        rw [hu c hc]
        decide
    unfold ip6Round
    rw [printEntry6_eq hn hle hm, List.append_assoc, strpbrk_eq hchar hseps]
    dsimp only
    rw [hE.reads, ip6Length_print hle hu]
    rfl
  have hentry : ¬ (128 < (n : ℤ) ∨ (n : ℤ) < 0) := by omega
  have hn0 : (n : ℤ) ≠ 0 := by omega
  constructor
  · have h := hround [] fun c hc => by cases hc
    rw [List.append_nil] at h
    rw [h]
    unfold ip6Entry
    dsimp only
    rw [if_neg hentry, if_neg hn0, if_neg fun h => hn0 h.1, Int.toNat_natCast, hpair]
    by_cases hsingle : (n : ℤ) = 128 ∧ l = []
    · rw [if_pos hsingle, if_pos ⟨hfull.2 hsingle.1, hsingle.2⟩, ← hm, hand]
    · rw [if_neg hsingle, if_neg fun h => hsingle ⟨hfull.1 h.1, h.2⟩]
  · have hcomma : ∀ c ∈ (',' :: t).head?, c = ',' := fun c hc => (Option.some.inj hc).symm
    rw [hround _ hcomma]
    unfold ip6Entry
    dsimp only
    rw [if_neg hentry, if_neg hn0, Int.toNat_natCast, hpair]

/-- A round that ends the loop. -/
theorem ip6Loop_done {l : List (BitVec 128 × BitVec 128)} {i : Ip6Insn}
    (h : ip6Round E N l s = some (.done i)) : ip6Loop E N (n + 1) l s = some i := by
  rw [ip6Loop, h]

/-- A round that goes on. -/
theorem ip6Loop_more {l l' : List (BitVec 128 × BitVec 128)}
    (h : ip6Round E N l s = some (.more l' t)) :
    ip6Loop E N (n + 1) l s = ip6Loop E N n l' t := by
  rw [ip6Loop, h]

/-- The round of the last entry. -/
theorem ip6Loop_finish {l : List (BitVec 128 × BitVec 128)} {o : Option Ip6Insn}
    (h : ip6Round E N l s = o.map .done) : ip6Loop E N (n + 1) l s = o := by
  rw [ip6Loop, h]
  cases o <;> rfl

/-- The loop over printed entries. -/
theorem ip6Loop_joinItems {l ps : List (BitVec 128 × BitVec 128)} (hne : ps ≠ [])
    (hps : ∀ p ∈ ps, Entry6Ok p) (hE : ∀ p ∈ ps, E.Prints6 p.1)
    (hlist : ∀ a, l ++ ps ≠ [(a, BitVec.allOnes 128)]) (hn : ps.length ≤ n) :
    ip6Loop E N n l (joinItems (ps.map (printEntry6 E))) = finishIp6 (l ++ ps) := by
  induction ps generalizing l n with
  | nil => exact absurd rfl hne
  | cons p ps ih =>
    rw [List.length_cons] at hn
    obtain ⟨n, rfl⟩ : ∃ k, n = k + 1 := ⟨n - 1, by omega⟩
    have hp := hps p List.mem_cons_self
    have hEp := hE p List.mem_cons_self
    rcases ps with _ | ⟨q, ps⟩
    · have hround := (ip6Round_entry (N := N) (t := []) (l := l) hp hEp).1
      rw [if_neg] at hround
      · exact ip6Loop_finish hround
      · rintro ⟨hm, rfl⟩
        exact hlist p.1 (by rw [← hm]; rfl)
    · refine (ip6Loop_more (t := joinItems ((q :: ps).map (printEntry6 E)))
        (ip6Round_entry hp hEp).2).trans ?_
      rw [ih (List.cons_ne_nil q ps) (fun p hp => hps p (List.mem_cons_of_mem _ hp))
        (fun p hp => hE p (List.mem_cons_of_mem _ hp)) _ (by omega), List.append_assoc]
      · rfl
      · rw [List.append_assoc]
        exact hlist

/-- A text that starts with an address is no keyword. -/
theorem addr6_ne {a : BitVec 128} {key : List Char} (hE : E.Prints6 a)
    (ht : ∀ c ∈ t.head?, c ∈ ['/', ',']) (hkey : key.all (fun c => c ∉ ['/', ',']) = true)
    (hbad : key.any (fun c => !isAddr6Char c) = true) : E.ntop6 a ++ t ≠ key := by
  rintro rfl
  cases t with
  | nil =>
    obtain ⟨c, hc, hbad⟩ := List.any_eq_true.1 hbad
    rw [List.append_nil] at hc
    rw [hE.chars c hc] at hbad
    cases hbad
  | cons c t =>
    have hc := List.all_eq_true.1 hkey c (List.mem_append_right _ List.mem_cons_self)
    exact of_decide_eq_true hc (ht c rfl)

theorem fillIp6_loop {p : BitVec 128 × BitVec 128} (hp : Entry6Ok p) (hE : E.Prints6 p.1)
    (l : List (List Char)) : fillIp6 E N (joinItems (printEntry6 E p :: l)) =
      ip6Loop E N ((joinItems (printEntry6 E p :: l)).length + 1) []
        (joinItems (printEntry6 E p :: l)) := by
  obtain ⟨n, hn, hle, hm, -⟩ := hp
  have hkey (key : List Char) (hkey : key.all (fun c => c ∉ ['/', ',']) = true)
      (hbad : key.any (fun c => !isAddr6Char c) = true) :
      joinItems (printEntry6 E p :: l) ≠ key := by
    rw [joinItems_cons, printEntry6_eq hn hle hm, List.append_assoc]
    refine addr6_ne hE ?_ hkey hbad
    split_ifs
    · intro c hc
      obtain rfl := Option.some.inj hc
      decide
    · cases l with
      | nil => intro c hc; cases hc
      | cons a l =>
        intro c hc
        obtain rfl := Option.some.inj hc
        decide
  unfold fillIp6
  have hany := hkey ['a', 'n', 'y'] (by decide +kernel) (by decide +kernel)
  have hme := hkey ['m', 'e'] (by decide +kernel) (by decide +kernel)
  have hme6 := hkey ['m', 'e', '6'] (by decide +kernel) (by decide +kernel)
  rw [if_neg hany, if_neg hme, if_neg hme6]

/-- Addresses of IPv6 are printed as they are read, but a list of one single address is not. -/
theorem fillIp6_printIp6 {i : Ip6Insn} (h : fillIp6 E N s = some i) (hany : i ≠ .any)
    (hE : ∀ a ∈ i.addrs, E.Prints6 a) :
    fillIp6 E N (printIp6 E i) = some i ↔ ∀ a, i ≠ .list [(a, BitVec.allOnes 128)] := by
  have hok := fillIp6_ok h
  cases i with
  | any => exact absurd rfl hany
  | me => exact iff_of_true rfl fun a h => by cases h
  | single a =>
    refine iff_of_true ?_ fun a h => by cases h
    have hE := hE a List.mem_cons_self
    have hp : Entry6Ok (a, BitVec.allOnes 128) :=
      ⟨128, by decide, le_rfl, maskOf_full.symm, BitVec.and_allOnes⟩
    have htext : printIp6 E (.single a) = joinItems [printEntry6 E (a, BitVec.allOnes 128)] := by
      change E.ntop6 a = printEntry6 E (a, BitVec.allOnes 128)
      rw [printEntry6_eq (n := 128) (by decide) le_rfl maskOf_full.symm, if_neg (by decide),
        List.append_nil]
    rw [htext, fillIp6_loop hp hE []]
    have hround := (ip6Round_entry (N := N) (t := []) (l := []) hp hE).1
    rw [if_pos ⟨rfl, rfl⟩] at hround
    exact ip6Loop_done hround
  | list l =>
    obtain ⟨hne, hlen, hps⟩ := hok
    have hE (p : BitVec 128 × BitVec 128) (hp : p ∈ l) : E.Prints6 p.1 :=
      hE p.1 (List.mem_map_of_mem hp)
    obtain ⟨p, ps, rfl⟩ := List.exists_cons_of_ne_nil hne
    change fillIp6 E N (joinItems (printEntry6 E p :: ps.map (printEntry6 E))) = _ ↔ _
    rw [fillIp6_loop (hps p List.mem_cons_self) (hE p List.mem_cons_self)]
    by_cases hsolo : ∃ a, p :: ps = [(a, BitVec.allOnes 128)]
    · obtain ⟨a, ha⟩ := hsolo
      refine iff_of_false ?_ fun h => h a (congrArg _ ha)
      obtain ⟨rfl, rfl⟩ := List.cons.inj ha
      have hround := (ip6Round_entry (N := N) (t := []) (l := [])
        (hps _ List.mem_cons_self) (hE _ List.mem_cons_self)).1
      rw [if_pos ⟨rfl, rfl⟩] at hround
      intro h
      cases (ip6Loop_done hround).symm.trans h
    · refine iff_of_true ?_ fun a h => hsolo ⟨a, Ip6Insn.list.inj h⟩
      have hfuel := length_joinItems ((p :: ps).map (printEntry6 E))
      rw [List.length_map] at hfuel
      have hrun := ip6Loop_joinItems (N := N) (l := []) hne hps hE
        (fun a h => hsolo ⟨a, h⟩) hfuel
      refine hrun.trans ?_
      unfold finishIp6
      rw [List.nil_append, if_neg (not_lt.2 hlen), if_neg hne]

/-! ### Lists of addresses -/

/-- The address is read as it is printed. -/
def InetEnv.Prints (E : InetEnv) (a : BitVec 32) : Prop := E.aton (inetNtoa a) = some a

/-- An address with a mask, as it is stored. -/
def EntryOk (p : BitVec 32 × BitVec 32) : Prop := p.2 ≠ 0 ∧ p.1 &&& p.2 = p.1

theorem mem_inetNtoa {a : BitVec 32} (h : c ∈ inetNtoa a) : c.isDigit = true ∨ c = '.' := by
  have hnum (n : ℕ) (h : c ∈ printNumber n) : c.isDigit = true := isDigit_of_mem_digitsOf h
  unfold inetNtoa at h
  simp only [List.mem_append, List.mem_cons] at h
  rcases h with h | rfl | h | rfl | h | rfl | h
  · exact .inl (hnum _ h)
  · exact .inr rfl
  · exact .inl (hnum _ h)
  · exact .inr rfl
  · exact .inl (hnum _ h)
  · exact .inr rfl
  · exact .inl (hnum _ h)

theorem inetNtoa_head (a : BitVec 32) (t : List Char) :
    ∃ c u, inetNtoa a ++ t = c :: u ∧ c.isDigit = true := by
  obtain ⟨c, u, h, hd⟩ := printNumber_head (a.toNat / 2 ^ 24)
  unfold inetNtoa
  rw [h]
  exact ⟨c, _, rfl, hd⟩

theorem inetNtoa_not_mem {a : BitVec 32} {p : List Char}
    (hseps : p.all (fun c => !c.isDigit && c != '.') = true) : ∀ c ∈ inetNtoa a, c ∉ p := by
  intro c hc hmem
  have hsep := List.all_eq_true.1 hseps c hmem
  rcases mem_inetNtoa hc with h | rfl
  · rw [h] at hsep
    cases hsep
  · revert hsep
    decide

/-- What a round of the loop stores. -/
def IpStep.ListOk : IpStep → Prop
  | .done (.list l) => l ≠ [] ∧ 2 * l.length + 1 ≤ 63 ∧ (∀ p ∈ l, EntryOk p) ∧
    ∀ a, l ≠ [(a, BitVec.allOnes 32)]
  | .done _ => True
  | .more l _ => ∀ p ∈ l, EntryOk p

theorem fillSet_set {a m : BitVec 32} {i : IpInsn} (h : fillSet a m s = some i) :
    ∃ size map, i = .set a size map := by
  obtain ⟨k, -, h⟩ := Option.bind_eq_some_iff.1 h
  obtain ⟨-, h⟩ := Option.ite_none_left_eq_some.1 h
  obtain ⟨map, -, rfl⟩ := Option.map_eq_some_iff.1 h
  exact ⟨_, map, rfl⟩

theorem ipEntry_ok {l : List (BitVec 32 × BitVec 32)} {a m : BitVec 32} {st : IpStep}
    (hl : ∀ p ∈ l, EntryOk p) (h : ipEntry N l a m s = some st) : st.ListOk := by
  have hl' (hm : m ≠ 0) : ∀ p ∈ l ++ [(a &&& m, m)], EntryOk p := by
    intro p hp
    rcases List.mem_append.1 hp with hp | hp
    · exact hl p hp
    · obtain rfl := List.mem_singleton.1 hp
      exact ⟨hm, by rw [BitVec.and_assoc, BitVec.and_self]⟩
  unfold ipEntry at h
  split at h
  · obtain ⟨-, h⟩ := Option.ite_none_left_eq_some.1 h
    obtain ⟨i, hi, rfl⟩ := Option.map_eq_some_iff.1 h
    obtain ⟨size, map, rfl⟩ := fillSet_set hi
    trivial
  · split_ifs at h with hm hnot hsingle hlen
    · rw [← Option.some.inj h]
      trivial
    · rw [← Option.some.inj h]
      trivial
    · rw [← Option.some.inj h]
      refine ⟨by simp, ?_, hl' hm, fun b hb => ?_⟩
      · rw [List.length_append, List.length_singleton]
        exact not_lt.1 hlen
      · cases l with
        | nil => exact hsingle ⟨(Prod.mk.inj (List.cons.inj hb).1).2, rfl⟩
        | cons q l => simp at hb
  · split_ifs at h with hm
    · rw [← Option.some.inj h]
      trivial
    · rw [← Option.some.inj h]
      exact hl' hm

theorem ipRound_entryOf {l : List (BitVec 32 × BitVec 32)} {st : IpStep}
    (h : ipRound E N l s = some st) : ∃ a m t, ipEntry N l a m t = some st := by
  unfold ipRound at h
  generalize strpbrk ['/', ':', ',', '{'] s = q at h
  obtain ⟨name, p⟩ := q
  obtain ⟨a, -, h⟩ := Option.bind_eq_some_iff.1 h
  split at h
  · obtain ⟨m, -, h⟩ := Option.bind_eq_some_iff.1 h
    exact ⟨a, m, _, h⟩
  · obtain ⟨m, -, h⟩ := Option.bind_eq_some_iff.1 h
    exact ⟨a, m, _, h⟩
  · exact ⟨a, _, _, h⟩
  · exact ⟨a, _, _, h⟩

theorem lengthMask_printNumber {i : ℕ} (hi : i ≤ 32) :
    lengthMask (atoi (printNumber i)) = some (maskOf 32 i) := by
  unfold lengthMask
  dsimp only
  rw [atoi_printNumber, intOf_small (by omega), if_neg (by omega), Int.toNat_natCast]

/-- A round over a printed entry. -/
theorem ipRound_print {l : List (BitVec 32 × BitVec 32)} {p : BitVec 32 × BitVec 32}
    (hp : EntryOk p) (ha : E.Prints p.1) (hm : E.Prints p.2)
    (ht : ∀ c ∈ t.head?, c = ',') :
    ipRound E N l (printEntry p ++ t) = ipEntry N l p.1 p.2 t := by
  have hname : ∀ c ∈ inetNtoa p.1, c ∉ ['/', ':', ',', '{'] := inetNtoa_not_mem (by decide +kernel)
  have hmask : ∀ c ∈ inetNtoa p.2, c ∉ [',', '{'] := inetNtoa_not_mem (by decide +kernel)
  have hsep : ∀ c ∈ t.head?, c ∈ [',', '{'] := fun c hc => by
    rw [ht c hc]
    decide
  have hread : (E.aton (inetNtoa p.1) <|> E.host (inetNtoa p.1)) = some p.1 := by
    rw [show E.aton (inetNtoa p.1) = some p.1 from ha]
    rfl
  cases hc : contigmask p.2 with
  | none =>
    have htext : printEntry p = inetNtoa p.1 ++ ':' :: inetNtoa p.2 := by
      unfold printEntry
      rw [hc]
    unfold ipRound
    rw [htext, List.append_assoc, strpbrk_eq hname (by simp)]
    dsimp only
    rw [hread, Option.bind_some, List.cons_append]
    change (E.aton (strpbrk [',', '{'] (inetNtoa p.2 ++ t)).1).bind _ = _
    rw [strpbrk_eq hmask hsep, show E.aton (inetNtoa p.2) = some p.2 from hm]
    rfl
  | some i =>
    obtain ⟨hle, heq⟩ := eq_maskOf hc
    have hi0 : i ≠ 0 := by
      rintro rfl
      refine hp.1 ?_
      rw [heq]
      decide
    obtain ⟨i, rfl⟩ : ∃ k, i = k + 1 := ⟨i - 1, by omega⟩
    have htext : printEntry p =
        if i + 1 < 32 then inetNtoa p.1 ++ '/' :: printNumber (i + 1) else inetNtoa p.1 := by
      unfold printEntry
      rw [hc]
      rfl
    unfold ipRound
    rw [htext]
    split_ifs with hlt
    · have hdigits (c : Char) (hc : c ∈ printNumber (i + 1)) : c ∉ [',', '{'] := by
        intro hmem
        have hd := isDigit_of_mem_digitsOf hc
        rcases List.mem_cons.1 hmem with rfl | hmem
        · revert hd
          decide
        · obtain rfl := List.mem_singleton.1 hmem
          revert hd
          decide
      rw [List.append_assoc, strpbrk_eq hname (by simp)]
      dsimp only
      rw [hread, Option.bind_some, List.cons_append]
      change (lengthMask (atoi (strpbrk [',', '{'] (printNumber (i + 1) ++ t)).1)).bind _ = _
      rw [strpbrk_eq hdigits hsep, lengthMask_printNumber hle, ← heq]
      rfl
    · have hfull : p.2 = BitVec.allOnes 32 := by
        rw [heq, show i + 1 = 32 by omega, maskOf_full]
      rw [strpbrk_eq hname (fun c hc => by rw [ht c hc]; decide)]
      dsimp only
      rw [hread, Option.bind_some, hfull]
      cases t with
      | nil => rfl
      | cons c t =>
        obtain rfl := ht c rfl
        rfl

/-- A round that ends the loop. -/
theorem ipLoop_done {l : List (BitVec 32 × BitVec 32)} {i : IpInsn}
    (h : ipRound E N l s = some (.done i)) : ipLoop E N (n + 1) l s = some i := by
  rw [ipLoop, h]

/-- A round that goes on. -/
theorem ipLoop_more {l l' : List (BitVec 32 × BitVec 32)}
    (h : ipRound E N l s = some (.more l' t)) : ipLoop E N (n + 1) l s = ipLoop E N n l' t := by
  rw [ipLoop, h]

/-- The loop over printed entries. -/
theorem ipLoop_joinItems {l ps : List (BitVec 32 × BitVec 32)} (hne : ps ≠ [])
    (hps : ∀ p ∈ ps, EntryOk p) (hE : ∀ p ∈ ps, E.Prints p.1 ∧ E.Prints p.2)
    (hlist : ∀ a, l ++ ps ≠ [(a, BitVec.allOnes 32)]) (hlen : 2 * (l ++ ps).length + 1 ≤ 63)
    (hn : ps.length ≤ n) :
    ipLoop E N n l (joinItems (ps.map printEntry)) = some (.list (l ++ ps)) := by
  induction ps generalizing l n with
  | nil => exact absurd rfl hne
  | cons p ps ih =>
    rw [List.length_cons] at hn
    obtain ⟨n, rfl⟩ : ∃ k, n = k + 1 := ⟨n - 1, by omega⟩
    have hp := hps p List.mem_cons_self
    obtain ⟨ha, hm⟩ := hE p List.mem_cons_self
    have hpair : (p.1 &&& p.2, p.2) = p := by rw [hp.2]
    rcases ps with _ | ⟨q, ps⟩
    · have hround := ipRound_print (N := N) (t := []) (l := l) hp ha hm
        (fun c hc => by cases hc)
      rw [List.append_nil] at hround
      have hentry : ipEntry N l p.1 p.2 [] = some (.done (.list (l ++ [p]))) := by
        unfold ipEntry
        rw [if_neg hp.1, if_neg, if_neg, hpair]
        · rw [List.length_append, List.length_singleton] at hlen
          omega
        · rintro ⟨hfull, rfl⟩
          exact hlist p.1 (by rw [← hfull]; rfl)
      exact ipLoop_done (hround.trans hentry)
    · have hround := ipRound_print (N := N)
        (t := ',' :: joinItems ((q :: ps).map printEntry)) (l := l) hp ha hm
        (fun c hc => (Option.some.inj hc).symm)
      have hentry (t : List Char) : ipEntry N l p.1 p.2 (',' :: t) =
          some (.more (l ++ [p]) t) := by
        change (if p.2 = 0 then _ else some (IpStep.more (l ++ [(p.1 &&& p.2, p.2)]) t)) = _
        rw [if_neg hp.1, hpair]
      refine (ipLoop_more (hround.trans (hentry _))).trans ?_
      rw [ih (List.cons_ne_nil q ps) (fun p hp => hps p (List.mem_cons_of_mem _ hp))
        (fun p hp => hE p (List.mem_cons_of_mem _ hp)) _ _ (by omega), List.append_assoc]
      · rfl
      · rw [List.append_assoc]
        exact hlist
      · rw [List.append_assoc]
        exact hlen

/-- A text that starts with an address is no keyword. -/
theorem fillIp_loop (a : BitVec 32) (t : List Char) :
    fillIp E N (inetNtoa a ++ t) =
      ipLoop E N ((inetNtoa a ++ t).length + 1) [] (inetNtoa a ++ t) := by
  obtain ⟨c, u, h, hd⟩ := inetNtoa_head a t
  have hc (d : Char) (hnd : d.isDigit = false) : c ≠ d := by
    rintro rfl
    rw [hd] at hnd
    cases hnd
  rw [h]
  unfold fillIp substrcmp
  rw [if_neg, if_neg, if_neg]
  · have hne := hc 't' (by decide)
    simp [tableKey, List.isPrefixOf, hne.symm]
  · have hne := hc 'm' (by decide)
    simp [List.isPrefixOf, hne]
  · have hne := hc 'a' (by decide)
    simp [List.isPrefixOf, hne]

theorem fillIp_single {a : BitVec 32} (ha : E.Prints a) :
    fillIp E N (inetNtoa a) = some (.single a) := by
  have hname : ∀ c ∈ inetNtoa a, c ∉ ['/', ':', ',', '{'] := inetNtoa_not_mem (by decide +kernel)
  have hloop := fillIp_loop (E := E) (N := N) a []
  rw [List.append_nil] at hloop
  have hcut := strpbrk_eq hname (t := []) (by simp)
  rw [List.append_nil] at hcut
  have hread : (E.aton (inetNtoa a) <|> E.host (inetNtoa a)) = some a := by
    rw [show E.aton (inetNtoa a) = some a from ha]
    rfl
  rw [hloop]
  unfold ipLoop ipRound
  rw [hcut]
  dsimp only
  rw [hread]
  change some (IpInsn.single (a &&& BitVec.allOnes 32)) = _
  rw [BitVec.and_allOnes]

theorem strtoul_printNumber {x : BitVec w} (hw : w ≤ 32) (ht : NotDigit t) :
    (strtoul (printNumber x.toNat ++ t)).1.setWidth w = x := by
  apply BitVec.eq_of_toNat_eq
  have hval := (inWidth_toNat x).unsigned (hw.trans (by decide))
  change ((unsignedLongOf (scanNumber (printNumber x.toNat ++ t)).1).setWidth w).toNat = _
  rw [scanNumber_printNumber _ ht]
  exact_mod_cast hval

/-- A table and a value. -/
theorem fillTable_value {v : List Char} (h : strpbrk [','] s = (t, c :: v)) :
    fillTable s = .table ((strtoul t).1.setWidth 16) (some ((strtoul v).1.setWidth 32)) := by
  rw [fillTable, h]

/-- A table without a value. -/
theorem fillTable_bare (h : strpbrk [','] s = (t, [])) :
    fillTable s = .table ((strtoul t).1.setWidth 16) none := by
  rw [fillTable, h]

theorem fillIp_table (x : BitVec 16) (value : Option (BitVec 32)) :
    fillIp E N (printIp (.table x value)) = some (.table x value) := by
  have hclose : NotDigit [')'] := notDigit_cons (by decide)
  have hparse : fillTable (printNumber x.toNat ++
      ((value.elim [] fun v => ',' :: printNumber v.toNat) ++ [')'])) = .table x value := by
    have hdigits (c : Char) (hc : c ∈ printNumber x.toNat) : c ∉ [','] := by
      intro hmem
      obtain rfl := List.mem_singleton.1 hmem
      exact absurd (isDigit_of_mem_digitsOf hc) (by decide)
    cases value with
    | none =>
      have hcut := strpbrk_eq (p := [',']) (a := printNumber x.toNat ++ [')']) (t := [])
        (fun c hc => by
          rcases List.mem_append.1 hc with hc | hc
          · exact hdigits c hc
          · obtain rfl := List.mem_singleton.1 hc
            decide) (by simp)
      rw [List.append_nil] at hcut
      refine (fillTable_bare hcut).trans ?_
      rw [strtoul_printNumber (by decide) hclose]
    | some v =>
      have hcut := strpbrk_eq (p := [',']) hdigits
        (t := ',' :: (printNumber v.toNat ++ [')'])) (by simp)
      refine (fillTable_value hcut).trans ?_
      have hnum := strtoul_printNumber (x := x) (by decide) notDigit_nil
      rw [List.append_nil] at hnum
      rw [hnum, strtoul_printNumber (by decide) hclose]
  change some (fillTable _) = _
  exact congrArg some hparse

theorem ipLoop_listOk {l : List (BitVec 32 × BitVec 32)} {i : IpInsn}
    (hl : ∀ p ∈ l, EntryOk p) (h : ipLoop E N n l s = some i) : (IpStep.done i).ListOk := by
  induction n generalizing l s with
  | zero => cases h
  | succ n ih =>
    unfold ipLoop at h
    cases hr : ipRound E N l s with
    | none => simp only [hr, reduceCtorEq] at h
    | some st =>
      obtain ⟨a, m, t, hentry⟩ := ipRound_entryOf hr
      have hok := ipEntry_ok hl hentry
      cases st with
      | done j =>
        simp only [hr, Option.some.injEq] at h
        rwa [← h]
      | more l' av =>
        simp only [hr] at h
        exact ih hok h

end Dummynet.Tool
