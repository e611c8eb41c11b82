import Dummynet.Tool.PrintedAddrs

/-!
# Listed rules are read back

The numbers of a set of addresses are printed one by one, or as ranges of three and more. An empty
set, which can be read, is printed without its opening brace.

## Main results

* `printBits_reads`: the numbers of a set are read back.
* `fillIp_printIp`: the instructions for addresses that are read back.
* `operand_reloads_iff`: the operands of a listed rule that are read back.
-/

namespace Dummynet.Tool

variable {w f n : ℕ} {s t : List Char} {c : Char} {E : InetEnv} {N : Bool}

/-! ### Sets of addresses -/

variable {map acc : BitVec 256} {size base : ℕ}

/-- The bits from one number to another are added. -/
theorem getLsbD_addRange {i j k : ℕ} :
    (acc ||| setBits 256 (List.range' i (j - i))).getLsbD k ↔
      acc.getLsbD k ∨ k < 256 ∧ i ≤ k ∧ k < j := by
  rw [BitVec.getLsbD_or, Bool.or_eq_true, setBits_spec, List.mem_range'_1]
  constructor
  · rintro (h | ⟨h, hi, hj⟩)
    · exact .inl h
    · exact .inr ⟨h, hi, by omega⟩
  · rintro (h | ⟨h, hi, hj⟩)
    · exact .inl h
    · exact .inr ⟨h, hi, by omega⟩

/-- A number of a set, and what follows it. -/
theorem setLoop_number {prev : Option ℕ} {k : ℕ} (ht : NotDigit t) (hk : k < size)
    (hsize : base + size ≤ 256) :
    setLoop base (base + size - 1) (n + 1) prev acc (printNumber (k + base) ++ t) =
      if prev.any fun i => k < i || t.head? = some '-' then none
      else
        let acc := acc ||| setBits 256 (List.range' (prev.getD k) (k + 1 - prev.getD k))
        match t with
        | '-' :: t => setLoop base (base + size - 1) n (some k) acc t
        | '}' :: _ => some acc
        | _ :: t => setLoop base (base + size - 1) n none acc t
        | [] => none := by
  have hval : (intOf ((k + base : ℕ) : ℤ)).toInt = ((k + base : ℕ) : ℤ) :=
    intOf_small (by omega)
  have hnat : ((k + base : ℕ) : ℤ).toNat - base = k := by omega
  rw [setLoop, if_pos (startsDigit_printNumber _), scanNumber_printNumber _ ht]
  dsimp only
  have hrange : ¬ (((k + base : ℕ) : ℤ) < base ∨ ((base + size - 1 : ℕ) : ℤ) < (k + base : ℕ)) := by
    omega
  rw [hval, if_neg hrange]
  generalize ((k + base : ℕ) : ℤ).toNat - base = j at hnat ⊢
  subst hnat
  exact rfl

theorem bitsEnd_spec {i : ℕ} (hi : i ≤ size) : i ≤ bitsEnd map size i ∧
    bitsEnd map size i ≤ size ∧ ∀ k, i ≤ k → k < bitsEnd map size i → map.getLsbD k := by
  unfold bitsEnd
  generalize hl : (List.range' i (size - i)).takeWhile (fun k => map.getLsbD k) = l
  have hprefix : l <+: List.range' i (size - i) := hl ▸ List.takeWhile_prefix _
  have hlen := hprefix.length_le
  rw [List.length_range'] at hlen
  refine ⟨Nat.le_add_right _ _, by omega, fun k hik hk => ?_⟩
  have hlt : k - i < l.length := by omega
  have hget := hprefix.getElem hlt
  rw [List.getElem_range', Nat.one_mul, Nat.add_sub_of_le hik] at hget
  have hmem : k ∈ (List.range' i (size - i)).takeWhile (fun k => map.getLsbD k) := by
    rw [hl, ← hget]
    exact List.getElem_mem hlt
  exact List.all_eq_true.1 List.all_takeWhile k hmem

/-- The text of the bits from `i` on is nothing, or it is read back. -/
def ReadsBits (map : BitVec 256) (size base : ℕ) (comma : Char) (acc : BitVec 256)
    (text : List Char) : Prop :=
  (text = [] ∧ acc = map) ∨
    ∃ u, text = comma :: u ∧ (∃ k, map.getLsbD k) ∧ ∀ n, u.length < n →
      setLoop base (base + size - 1) n none acc (u ++ ['}']) = some map

/-- The last number of an item, and the items after it. -/
theorem setLoop_item {prev : Option ℕ} {k : ℕ} (hk : k < size) (hsize : base + size ≤ 256)
    (hprev : ∀ i ∈ prev, i ≤ k)
    (ht : ReadsBits map size base ','
      (acc ||| setBits 256 (List.range' (prev.getD k) (k + 1 - prev.getD k))) t)
    (hn : t.length < n) :
    setLoop base (base + size - 1) n prev acc (printNumber (k + base) ++ (t ++ ['}'])) =
      some map := by
  obtain ⟨n, rfl⟩ : ∃ m, n = m + 1 := ⟨n - 1, by omega⟩
  have hclose : NotDigit ['}'] := notDigit_cons (by decide)
  have hok (c : Char) (hc : c ≠ '-') :
      ¬ (prev.any fun i => k < i || some c = some '-') = true := by
    cases prev with
    | none => exact Bool.false_ne_true
    | some i =>
      have hle := hprev i rfl
      simp [hc, hle]
  rcases ht with ⟨rfl, hacc⟩ | ⟨u, rfl, -, hread⟩
  · rw [List.nil_append, setLoop_number hclose hk hsize, List.head?_cons,
      if_neg (hok '}' (by decide))]
    exact congrArg some hacc
  · have hcomma : NotDigit (',' :: (u ++ ['}'])) := notDigit_cons (by decide)
    rw [List.cons_append, setLoop_number hcomma hk hsize, List.head?_cons,
      if_neg (hok ',' (by decide))]
    exact hread n (by rw [List.length_cons] at hn; omega)

theorem printBits_reads (hbits : ∀ k, map.getLsbD k → k < size) (hsize : base + size ≤ 256)
    {i : ℕ} (comma : Char) (hf : size - i ≤ f)
    (hacc : ∀ k, acc.getLsbD k ↔ map.getLsbD k ∧ k < i) :
    ReadsBits map size base comma acc (printBits map size base f i comma) := by
  have hdone {i : ℕ} {acc : BitVec 256} (hi : size ≤ i)
      (hacc : ∀ k, acc.getLsbD k ↔ map.getLsbD k ∧ k < i) : acc = map := by
    refine BitVec.eq_of_getLsbD_eq fun k _ => Bool.eq_iff_iff.2 ?_
    rw [hacc]
    exact ⟨And.left, fun h => ⟨h, (hbits k h).trans_le hi⟩⟩
  induction f generalizing i comma acc with
  | zero => exact .inl ⟨rfl, hdone (by omega) hacc⟩
  | succ f ih =>
    unfold printBits
    split_ifs with hi hbit
    · exact .inl ⟨rfl, hdone hi hacc⟩
    · obtain ⟨hle, hend, hall⟩ : i + 1 ≤ bitsEnd map size (i + 1) ∧
          bitsEnd map size (i + 1) ≤ size ∧
            ∀ k, i + 1 ≤ k → k < bitsEnd map size (i + 1) → map.getLsbD k :=
        bitsEnd_spec (by omega)
      dsimp only
      generalize bitsEnd map size (i + 1) = j at hle hend hall ⊢
      have hall' (k : ℕ) (hik : i ≤ k) (hkj : k < j) : map.getLsbD k := by
        rcases Nat.eq_or_lt_of_le hik with rfl | hlt
        · exact hbit
        · exact hall k hlt hkj
      by_cases hrange : i + 2 < j
      · rw [if_pos hrange]
        refine .inr ⟨_, rfl, ⟨i, hbit⟩, fun n hn => ?_⟩
        rw [List.length_append, List.length_cons, List.length_append] at hn
        obtain ⟨n, rfl⟩ : ∃ m, n = m + 1 := ⟨n - 1, by omega⟩
        have hminus : NotDigit ('-' :: (printNumber (j - 1 + base) ++
            (printBits map size base f j ',' ++ ['}']))) := notDigit_cons (by decide)
        rw [List.append_assoc, List.cons_append, List.append_assoc,
          setLoop_number hminus (by omega) hsize, Option.any_none, if_neg Bool.false_ne_true]
        change setLoop base (base + size - 1) n (some i)
          (acc ||| setBits 256 (List.range' i (i + 1 - i))) _ = some map
        refine setLoop_item (by omega) hsize (fun k hk => ?_) (ih ',' (by omega) fun k => ?_)
          (by omega)
        · obtain rfl := Option.some.inj hk
          omega
        · change ((acc ||| setBits 256 (List.range' i (i + 1 - i))) |||
            setBits 256 (List.range' i (j - 1 + 1 - i))).getLsbD k ↔ _
          rw [Nat.sub_add_cancel (by omega), getLsbD_addRange, getLsbD_addRange, hacc]
          constructor
          · rintro ((⟨h, hk⟩ | ⟨-, h, hk⟩) | ⟨-, h, hk⟩)
            · exact ⟨h, by omega⟩
            · exact ⟨hall' k h (by omega), by omega⟩
            · exact ⟨hall' k h hk, hk⟩
          · rintro ⟨h, hk⟩
            have hlt := hbits k h
            by_cases hki : k < i
            · exact .inl (.inl ⟨h, hki⟩)
            · exact .inr ⟨by omega, by omega, hk⟩
      · rw [if_neg hrange]
        refine .inr ⟨_, rfl, ⟨i, hbit⟩, fun n hn => ?_⟩
        rw [List.length_append] at hn
        rw [List.append_assoc]
        refine setLoop_item (by omega) hsize (fun k hk => by cases hk)
          (ih ',' (by omega) fun k => ?_) (by omega)
        change (acc ||| setBits 256 (List.range' i (i + 1 - i))).getLsbD k ↔ _
        rw [getLsbD_addRange, hacc]
        constructor
        · rintro (⟨h, hk⟩ | ⟨-, h, hk⟩)
          · exact ⟨h, by omega⟩
          · obtain rfl : k = i := by omega
            exact ⟨hbit, hk⟩
        · rintro ⟨h, hk⟩
          have hlt := hbits k h
          by_cases hki : k < i
          · exact .inl ⟨h, hki⟩
          · exact .inr ⟨by omega, by omega, hk⟩
    · refine ih comma (by omega) fun k =>
        (hacc k).trans ⟨fun h => ⟨h.1, by omega⟩, fun h => ⟨h.1, ?_⟩⟩
      rcases Nat.eq_or_lt_of_le (Nat.le_of_lt_succ h.2) with rfl | hlt
      · exact absurd h.1 hbit
      · exact hlt

/-- A set of addresses, as it is stored. -/
def SetOk (a : BitVec 32) (size : ℕ) (map : BitVec 256) : Prop :=
  ∃ i, 24 ≤ i ∧ i ≤ 31 ∧ size = 2 ^ (32 - i) ∧ a &&& maskOf 32 i = a ∧
    ∀ k, map.getLsbD k → k < size

theorem setLoop_bits {prev : Option ℕ} (hsize : 0 < size)
    (hacc : ∀ k, acc.getLsbD k → k < size)
    (h : setLoop base (base + size - 1) n prev acc s = some map) :
    ∀ k, map.getLsbD k → k < size := by
  induction n generalizing prev acc s with
  | zero => cases h
  | succ n ih =>
    unfold setLoop at h
    by_cases hdigit : startsDigit s
    swap
    · rw [if_neg hdigit] at h
      obtain rfl := Option.some.inj h
      exact hacc
    rw [if_pos hdigit] at h
    generalize scanNumber s = q at h
    obtain ⟨z, e⟩ := q
    dsimp only at h
    obtain ⟨hrange, h⟩ := Option.ite_none_left_eq_some.1 h
    obtain ⟨-, h⟩ := Option.ite_none_left_eq_some.1 h
    have hadd (first : ℕ) : ∀ k, (acc ||| setBits 256 (List.range' first
        ((intOf z).toInt.toNat - base + 1 - first))).getLsbD k → k < size := by
      intro k hk
      rcases getLsbD_addRange.1 hk with hk | ⟨-, -, hk⟩
      · exact hacc k hk
      · omega
    split at h
    · exact ih (hadd _) h
    · obtain rfl := Option.some.inj h
      exact hadd _
    · exact ih (hadd _) h
    · cases h

/-- What a round of the loop stores. -/
def IpStep.SetOk : IpStep → Prop
  | .done (.set a size map) => Tool.SetOk a size map
  | _ => True

theorem fillSet_ok {a m : BitVec 32} {i : IpInsn} (h : fillSet (a &&& m) m s = some i) :
    (IpStep.done i).SetOk := by
  obtain ⟨k, hk, h⟩ := Option.bind_eq_some_iff.1 h
  obtain ⟨hrange, h⟩ := Option.ite_none_left_eq_some.1 h
  obtain ⟨map, hmap, rfl⟩ := Option.map_eq_some_iff.1 h
  obtain ⟨-, rfl⟩ := eq_maskOf hk
  refine ⟨k, by omega, by omega, rfl, by rw [BitVec.and_assoc, BitVec.and_self], ?_⟩
  refine setLoop_bits (Nat.two_pow_pos _) (fun j hj => ?_) hmap
  simp at hj

theorem ipEntry_setOk {l : List (BitVec 32 × BitVec 32)} {a m : BitVec 32} {st : IpStep}
    (h : ipEntry N l a m s = some st) : st.SetOk := by
  unfold ipEntry at h
  split at h
  · obtain ⟨-, h⟩ := Option.ite_none_left_eq_some.1 h
    obtain ⟨i, hi, rfl⟩ := Option.map_eq_some_iff.1 h
    exact fillSet_ok hi
  · split_ifs at h <;> (rw [← Option.some.inj h]; trivial)
  · split_ifs at h <;> (rw [← Option.some.inj h]; trivial)

theorem ipLoop_setOk {l : List (BitVec 32 × BitVec 32)} {i : IpInsn}
    (h : ipLoop E N n l s = some i) : (IpStep.done i).SetOk := by
  induction n generalizing l s with
  | zero => cases h
  | succ n ih =>
    unfold ipLoop at h
    cases hr : ipRound E N l s with
    | none => simp only [hr, reduceCtorEq] at h
    | some st =>
      obtain ⟨a, m, t, hentry⟩ := ipRound_entryOf hr
      cases st with
      | done j =>
        simp only [hr, Option.some.injEq] at h
        rw [← h]
        exact ipEntry_setOk hentry
      | more l' av =>
        simp only [hr] at h
        exact ih h

/-- The numbers of a set end within a byte. -/
theorem base_add_size {a : BitVec 32} {i : ℕ} (hlo : 24 ≤ i) (hhi : i ≤ 31)
    (ha : a &&& maskOf 32 i = a) : a.toNat % 256 + 2 ^ (32 - i) ≤ 256 := by
  have hlow : a.setWidth (32 - i) = 0 := by
    refine BitVec.eq_of_getLsbD_eq fun j hj => ?_
    rw [BitVec.getLsbD_setWidth, ← ha, BitVec.getLsbD_and]
    unfold maskOf
    rw [BitVec.getLsbD_shiftLeft]
    simp [hj]
  have hmod : a.toNat % 2 ^ (32 - i) = 0 := by
    rw [← BitVec.toNat_setWidth, hlow]
    rfl
  interval_cases i <;> omega

theorem printLength_size {i : ℕ} (hlo : 24 ≤ i) (hhi : i ≤ 31) :
    printLength (~~~ (BitVec.ofNat 32 (2 ^ (32 - i) - 1))) = printNumber i := by
  interval_cases i <;> decide +kernel

/-- The first round over a printed set. -/
theorem ipRound_set {a : BitVec 32} (ha : E.Prints a) (u : List Char) :
    ipRound E N [] (inetNtoa a ++ '/' :: u) =
      (lengthMask (atoi (strpbrk [',', '{'] u).1)).bind fun m =>
        ipEntry N [] a m (strpbrk [',', '{'] u).2 := by
  have hname : ∀ c ∈ inetNtoa a, c ∉ ['/', ':', ',', '{'] := inetNtoa_not_mem (by decide +kernel)
  have hread : (E.aton (inetNtoa a) <|> E.host (inetNtoa a)) = some a := by
    rw [show E.aton (inetNtoa a) = some a from ha]
    rfl
  unfold ipRound
  rw [strpbrk_eq hname (by simp)]
  dsimp only
  rw [hread]
  rfl

theorem fillIp_set {a : BitVec 32} (hok : SetOk a size map) (ha : E.Prints a) :
    fillIp E N (printIp (.set a size map)) = some (.set a size map) ↔ map ≠ 0 := by
  obtain ⟨i, hlo, hhi, rfl, hand, hbits⟩ := hok
  have hsize := base_add_size hlo hhi hand
  have hreads : ReadsBits map (2 ^ (32 - i)) (a.toNat % 256) '{' 0
      (printBits map (2 ^ (32 - i)) (a.toNat % 256) (2 ^ (32 - i)) 0 '{') :=
    printBits_reads hbits hsize '{' (Nat.sub_le _ _) fun k => by simp
  have hdigits (c : Char) (hc : c ∈ printNumber i) : c ∉ [',', '{'] := by
    intro hmem
    have hd := isDigit_of_mem_digitsOf hc
    rcases List.mem_cons.1 hmem with rfl | hmem
    · revert hd
      decide
    · obtain rfl := List.mem_singleton.1 hmem
      revert hd
      decide
  unfold printIp
  dsimp only
  rw [printLength_size hlo hhi, fillIp_loop]
  generalize hfuel : (inetNtoa a ++ '/' :: (printNumber i ++
    (printBits map (2 ^ (32 - i)) (a.toNat % 256) (2 ^ (32 - i)) 0 '{' ++ ['}']))).length = n
  unfold ipLoop
  rw [ipRound_set ha]
  rcases hreads with ⟨htext, hzero⟩ | ⟨u, htext, ⟨k, hk⟩, hread⟩
  · rw [htext, List.nil_append]
    refine iff_of_false ?_ (not_not.2 hzero.symm)
    have hcut := strpbrk_eq (p := [',', '{']) (a := printNumber i ++ ['}']) (t := [])
      (fun c hc => by
        rcases List.mem_append.1 hc with hc | hc
        · exact hdigits c hc
        · obtain rfl := List.mem_singleton.1 hc
          decide) (by simp)
    rw [List.append_nil] at hcut
    rw [hcut]
    dsimp only
    cases lengthMask (atoi (printNumber i ++ ['}'])) with
    | none => simp
    | some m =>
      rw [Option.bind_some]
      unfold ipEntry
      split_ifs <;> simp
  · refine iff_of_true ?_ fun h => by
      rw [h] at hk
      simp at hk
    have hcut := strpbrk_eq (p := [',', '{']) hdigits (t := '{' :: (u ++ ['}'])) (by simp)
    have hmask := contigmask_maskOf (w := 32) (n := i) (by omega)
    rw [htext, List.cons_append, hcut]
    dsimp only
    rw [lengthMask_printNumber (by omega), Option.bind_some]
    have hfill : fillSet a (maskOf 32 i) (u ++ ['}']) = some (.set a (2 ^ (32 - i)) map) := by
      unfold fillSet
      rw [hmask, Option.bind_some, if_neg (by omega)]
      dsimp only
      rw [hread _ (by rw [List.length_append]; omega)]
      rfl
    have hentry : ipEntry N [] a (maskOf 32 i) ('{' :: (u ++ ['}'])) =
        some (.done (.set a (2 ^ (32 - i)) map)) := by
      change (if ([] : List (BitVec 32 × BitVec 32)) ≠ [] then none
        else (fillSet (a &&& maskOf 32 i) (maskOf 32 i) (u ++ ['}'])).map IpStep.done) = _
      rw [if_neg (not_not.2 rfl), hand, hfill]
      rfl
    rw [hentry]

/-- Addresses are printed as they are read, but an empty set is not. -/
theorem fillIp_printIp {i : IpInsn} (h : fillIp E N s = some i) (hany : i ≠ .any)
    (hE : ∀ a ∈ i.addrs, E.Prints a) :
    fillIp E N (printIp i) = some i ↔ ∀ a size, i ≠ .set a size 0 := by
  have hok : (IpStep.done i).ListOk ∧ (IpStep.done i).SetOk := by
    unfold fillIp at h
    split_ifs at h
    · rw [← Option.some.inj h]
      exact ⟨trivial, trivial⟩
    · rw [← Option.some.inj h]
      exact ⟨trivial, trivial⟩
    · rw [← Option.some.inj h]
      exact ⟨trivial, trivial⟩
    · exact ⟨ipLoop_listOk (fun p hp => absurd hp List.not_mem_nil) h, ipLoop_setOk h⟩
  cases i with
  | any => exact absurd rfl hany
  | me => exact iff_of_true rfl fun a size h => by cases h
  | table x value => exact iff_of_true (fillIp_table x value) fun a size h => by cases h
  | single a =>
    exact iff_of_true (fillIp_single (hE a List.mem_cons_self)) fun a size h => by cases h
  | set a size map =>
    rw [fillIp_set hok.2 (hE a List.mem_cons_self)]
    exact ⟨fun hne b n h => hne (IpInsn.set.inj h).2.2, fun h hmap => h a size (hmap ▸ rfl)⟩
  | list l =>
    refine iff_of_true ?_ fun a size h => by cases h
    obtain ⟨hne, hlen, hps, hsolo⟩ := hok.1
    obtain ⟨p, ps, rfl⟩ := List.exists_cons_of_ne_nil hne
    have hfuel := length_joinItems ((p :: ps).map printEntry)
    rw [List.length_map] at hfuel
    have haddrs (q : BitVec 32 × BitVec 32) (hq : q ∈ p :: ps) : E.Prints q.1 ∧ E.Prints q.2 :=
      ⟨hE q.1 (List.mem_flatMap.2 ⟨q, hq, List.mem_cons_self⟩),
        hE q.2 (List.mem_flatMap.2 ⟨q, hq, List.mem_cons_of_mem _ List.mem_cons_self⟩)⟩
    have hrun := ipLoop_joinItems (N := N) (l := []) hne hps haddrs hsolo hlen hfuel
    obtain ⟨t, htext⟩ : ∃ t, printIp (.list (p :: ps)) = inetNtoa p.1 ++ t := by
      change ∃ t, joinItems (printEntry p :: ps.map printEntry) = inetNtoa p.1 ++ t
      rw [joinItems_cons]
      have hentry : ∃ t, printEntry p = inetNtoa p.1 ++ t := by
        unfold printEntry
        split
        · obtain ⟨-, heq⟩ := eq_maskOf (by assumption)
          exact absurd (heq.trans (by decide)) (hps p List.mem_cons_self).1
        · split_ifs
          · exact ⟨_, rfl⟩
          · exact ⟨[], (List.append_nil _).symm⟩
        · exact ⟨_, rfl⟩
      obtain ⟨t, ht⟩ := hentry
      exact ⟨t ++ _, by rw [ht, List.append_assoc]⟩
    rw [htext, fillIp_loop, ← htext]
    exact hrun

/-! ### Operands -/

/-- An operand of a rule, as an instruction holds it. -/
inductive Operand
  | ip (i : IpInsn)
  | ip6 (i : Ip6Insn)
  | ports (ether : Bool) (l : List (BitVec 16 × BitVec 16))
  | flags (k : FlagKind) (r : BitVec 8 × BitVec 8)
  | types (d : BitVec 32)

/-- The instruction is made from the text. -/
def Operand.Filled (E : InetEnv) (lookup : List Char → Option (BitVec 16)) (N : Bool)
    (s : List Char) : Operand → Prop
  | .ip i => fillIp E N s = some i ∧ i ≠ .any
  | .ip6 i => fillIp6 E N s = some i ∧ i ≠ .any
  | .ports _ l => fillNewports lookup s = some l
  | .flags k r => fillFlags k s = some r
  | .types d => fillIcmptypes s = some d

/-- The instruction is made again from the text that is printed for it. -/
def Operand.Reloads (E : InetEnv) (lookup : List Char → Option (BitVec 16)) (N : Bool) :
    Operand → Prop
  | .ip i => fillIp E N (printIp i) = some i
  | .ip6 i => fillIp6 E N (printIp6 E i) = some i
  | .ports ether l => fillNewports lookup (printNewports ether l) = some l
  | .flags k r => readFlags k (printFlags k r) = some r
  | .types d => fillIcmptypes (printIcmptypes d) = some d

/-- The C library reads the addresses of the instruction as it prints them. -/
def Operand.Readable (E : InetEnv) : Operand → Prop
  | .ip i => ∀ a ∈ i.addrs, E.Prints a
  | .ip6 i => ∀ a ∈ i.addrs, E.Prints6 a
  | .ports _ _ | .flags _ _ | .types _ => True

/-- The instruction is no empty set of addresses, and no list of IPv6 with one single address. -/
def Operand.Plain : Operand → Prop
  | .ip i => ∀ a size, i ≠ .set a size 0
  | .ip6 i => ∀ a, i ≠ .list [(a, BitVec.allOnes 128)]
  | .ports _ _ | .flags _ _ | .types _ => True

/-- **The operands of listed rules.** What is printed for an instruction that can be made is read as
that instruction, unless it is an empty set or a list of IPv6 with one single address. -/
theorem operand_reloads_iff {lookup : List Char → Option (BitVec 16)} {o : Operand}
    (h : o.Filled E lookup N s) (hE : o.Readable E) : o.Reloads E lookup N ↔ o.Plain := by
  cases o with
  | ip i => exact fillIp_printIp h.1 h.2 hE
  | ip6 i => exact fillIp6_printIp6 h.1 h.2 hE
  | ports ether l => exact iff_true_intro (fillNewports_printNewports h)
  | flags k r => exact iff_true_intro (readFlags_printFlags h)
  | types d => exact iff_true_intro (fillIcmptypes_printIcmptypes d)

/-- A C library that knows the address 10.0.0.0. -/
def tenEnv : InetEnv where
  aton := fun s => if s = ['1', '0', '.', '0', '.', '0', '.', '0'] then some 0x0a000000 else none
  host := fun _ => none
  pton6 := fun _ => none
  host6 := fun _ => none
  ntop6 := fun _ => []

theorem tenEnv_prints : tenEnv.Prints 0x0a000000 := by
  unfold InetEnv.Prints
  decide +kernel

/-- `10.0.0.0/24{1,5-7}`. -/
theorem operand_reloads_set : (Operand.ip (.set 0x0a000000 256 0xe2)).Reloads tenEnv
    (fun _ => none) false := by
  have hfill : (Operand.ip (.set 0x0a000000 256 0xe2)).Filled tenEnv (fun _ => none) false
      ['1', '0', '.', '0', '.', '0', '.', '0', '/', '2', '4', '{', '1', ',', '5', '-', '7', '}'] :=
    ⟨by decide +kernel, by decide⟩
  refine (operand_reloads_iff hfill fun a ha => ?_).2 fun a n h => ?_
  · obtain rfl := List.mem_singleton.1 ha
    exact tenEnv_prints
  · cases h

/-- **An empty set** `10.0.0.0/24{}` is printed as `10.0.0.0/24}`, and read as a network. -/
theorem not_operand_reloads : ¬ ∀ (E : InetEnv) (lookup : List Char → Option (BitVec 16))
    (N : Bool) (s : List Char) (o : Operand), o.Filled E lookup N s → o.Readable E →
      o.Reloads E lookup N := by
  intro hall
  have hset := hall tenEnv (fun _ => none) false ['1', '0', '.', '0', '.', '0', '.', '0', '/', '2',
    '4', '{', '}'] (.ip (.set 0x0a000000 256 0)) ⟨by decide +kernel, by decide⟩ fun a ha => by
      obtain rfl := List.mem_singleton.1 ha
      exact tenEnv_prints
  have hread : fillIp tenEnv false (printIp (.set 0x0a000000 256 0)) =
      some (.list [(0x0a000000, 0xffffff00)]) := by decide +kernel
  have heq := hread.symm.trans hset
  cases heq

end Dummynet.Tool
