import Dummynet.Ipfw.Accepted

/-!
# Rules of the 7.2 format

A rule of the 7.2 format has no `id`, and its opcodes lack `O_REASS`. The conversions copy a rule
within a buffer of 1024 bytes, before the rule is checked. They do not end for an instruction
without a length, and they do not look at the end of the buffer. Pointers have 64 bits.

## Main definitions

* `RuleBuf`: the words of a buffer, with the two layouts `RuleBuf.header7` and `RuleBuf.header8`.
* `convertLoop`: the loop over the instructions, for both directions.
* `convertRuleTo8`, `convertRuleTo7`: the conversions.

## Main results

* `convertLoop_ok`, `convertLoop_reads`, `convertLoop_copies`: what the loop needs, and what it
  does.
* `convertRule_iff`: when the conversions are right.
-/

namespace Ipfw

/-! ### The buffer -/

/-- The words of a buffer of a rule. The ones from `ruleMaxWords` on are outside. -/
abbrev RuleBuf := ℕ → BitVec 32

/-- `RULE_MAXSIZE`, in words. -/
def ruleMaxWords : ℕ := 256

/-- The offset of `cmd` in `struct ip_fw7`, in words. -/
def cmdOfs7 : ℕ := 11

/-- The offset of `cmd` in `struct ip_fw`, in words. -/
def cmdOfs8 : ℕ := 13

/-- The fields that `struct ip_fw7` and `struct ip_fw` have in common. -/
@[ext]
structure RuleHeader where
  next : BitVec 64
  nextRule : BitVec 64
  actOfs : BitVec 16
  cmdLen : BitVec 16
  rulenum : BitVec 16
  set : BitVec 8
  pad : BitVec 8
  pcnt : BitVec 64
  bcnt : BitVec 64
  timestamp : BitVec 32

namespace RuleBuf

variable (b : RuleBuf)

/-- The fields of a `struct ip_fw7`. -/
def header7 : RuleHeader where
  next := b 1 ++ b 0
  nextRule := b 3 ++ b 2
  actOfs := (b 4).extractLsb' 0 16
  cmdLen := (b 4).extractLsb' 16 16
  rulenum := (b 5).extractLsb' 0 16
  set := (b 5).extractLsb' 16 8
  pad := (b 5).extractLsb' 24 8
  pcnt := b 7 ++ b 6
  bcnt := b 9 ++ b 8
  timestamp := b 10

/-- The fields of a `struct ip_fw`. Its counters are aligned. -/
def header8 : RuleHeader where
  next := b 1 ++ b 0
  nextRule := b 3 ++ b 2
  actOfs := (b 4).extractLsb' 0 16
  cmdLen := (b 4).extractLsb' 16 16
  rulenum := (b 5).extractLsb' 0 16
  set := (b 5).extractLsb' 16 8
  pad := (b 5).extractLsb' 24 8
  pcnt := b 9 ++ b 8
  bcnt := b 11 ++ b 10
  timestamp := b 12

/-- The assignments to the fields of a `struct ip_fw7`. -/
def setHeader7 (h : RuleHeader) : RuleBuf
  | 0 => h.next.extractLsb' 0 32
  | 1 => h.next.extractLsb' 32 32
  | 2 => h.nextRule.extractLsb' 0 32
  | 3 => h.nextRule.extractLsb' 32 32
  | 4 => h.cmdLen ++ h.actOfs
  | 5 => h.pad ++ h.set ++ h.rulenum
  | 6 => h.pcnt.extractLsb' 0 32
  | 7 => h.pcnt.extractLsb' 32 32
  | 8 => h.bcnt.extractLsb' 0 32
  | 9 => h.bcnt.extractLsb' 32 32
  | 10 => h.timestamp
  | i => b i

/-- The assignments to the fields of a `struct ip_fw`. -/
def setHeader8 (h : RuleHeader) (id : BitVec 32) : RuleBuf
  | 0 => h.next.extractLsb' 0 32
  | 1 => h.next.extractLsb' 32 32
  | 2 => h.nextRule.extractLsb' 0 32
  | 3 => h.nextRule.extractLsb' 32 32
  | 4 => h.cmdLen ++ h.actOfs
  | 5 => h.pad ++ h.set ++ h.rulenum
  | 6 => id
  | 8 => h.pcnt.extractLsb' 0 32
  | 9 => h.pcnt.extractLsb' 32 32
  | 10 => h.bcnt.extractLsb' 0 32
  | 11 => h.bcnt.extractLsb' 32 32
  | 12 => h.timestamp
  | i => b i

/-- The instructions, for an offset of `cmd`. -/
def cmd (ofs : ℕ) : ℕ → BitVec 32 := fun p => b (ofs + p)

/-- `bcopy` of `n` words. -/
def bcopy (tmp : RuleBuf) (ccmd dst n : ℕ) : RuleBuf := fun i =>
  if dst ≤ i ∧ i < dst + n then tmp (ccmd + (i - dst)) else b i

end RuleBuf

/-! ### The conversions -/

/-- The opcode of an instruction. -/
def opcodeOf (w : BitVec 32) : BitVec 8 := w.extractLsb' 0 8

/-- Changes the opcode of an instruction. -/
def renumber (f : BitVec 8 → BitVec 8) (w : BitVec 32) : BitVec 32 :=
  w.extractLsb' 8 24 ++ f (opcodeOf w)

/-- `O_NAT`. -/
def oNat : BitVec 8 := BitVec.ofNat 8 (Opcode.all.idxOf .nat)

/-- The opcode of the other format, for which `O_REASS` is skipped. -/
def opcodeTo8 (op : BitVec 8) : BitVec 8 := if oNat < op then op + 1 else op

/-- The opcode of the 7.2 format. -/
def opcodeTo7 (op : BitVec 8) : BitVec 8 := if oNat < op then op - 1 else op

/-- `EINVAL`. -/
def convertEinval : ℕ := 22

/-- A conversion returns an error number and the buffer, it has accessed a word outside of a buffer,
or it is still running. -/
inductive Conversion
  | returned (error : ℕ) (rule : RuleBuf)
  | outside
  | running

/-- The loop over the instructions, for `fuel` rounds. The copy of the rule is `tmp`. -/
def convertLoop (f : BitVec 8 → BitVec 8) (tmp : RuleBuf) :
    (fuel ll ccmd dst : ℕ) → RuleBuf → Conversion
  | 0, _, _, _, _ => .running
  | fuel + 1, ll, ccmd, dst, rule =>
    if ll = 0 then .returned 0 rule
    else if ruleMaxWords ≤ ccmd ∨ ruleMaxWords ≤ dst then .outside
    else
      let ccmdlen := lenAt tmp ccmd
      if ruleMaxWords < ccmd + ccmdlen ∨ ruleMaxWords < dst + ccmdlen then .outside
      else
        let rule := rule.bcopy tmp ccmd dst ccmdlen
        let rule := Function.update rule dst (renumber f (rule dst))
        if ll < ccmdlen then .returned convertEinval rule
        else convertLoop f tmp fuel (ll - ccmdlen) (ccmd + ccmdlen) (dst + ccmdlen) rule

/-- `convert_rule_to_8`, with the outcome of `malloc`. -/
def convertRuleTo8 (malloc : Bool) (fuel : ℕ) (rule : RuleBuf) : Conversion :=
  if !malloc then .returned 1 rule
  else
    match convertLoop opcodeTo8 rule fuel rule.header7.cmdLen.toNat cmdOfs7 cmdOfs8 rule with
    | .returned 0 r => .returned 0 (r.setHeader8 rule.header7 0)
    | r => r

/-- `convert_rule_to_7`, with the outcome of `malloc`. -/
def convertRuleTo7 (malloc : Bool) (fuel : ℕ) (rule : RuleBuf) : Conversion :=
  if !malloc then .returned 1 rule
  else
    convertLoop opcodeTo7 rule fuel rule.header8.cmdLen.toNat cmdOfs8 cmdOfs7
      (rule.setHeader7 rule.header8)

/-! ### The fields -/

section header

variable {b b' : RuleBuf} {h : RuleHeader} {id : BitVec 32} {w : BitVec 32}
  {f : BitVec 8 → BitVec 8}

theorem append_halves (x : BitVec 64) : x.extractLsb' 32 32 ++ x.extractLsb' 0 32 = x :=
  BitVec.extractLsb'_append_extractLsb'

theorem extract_low {m n : ℕ} (x : BitVec m) (y : BitVec n) : (x ++ y).extractLsb' 0 n = y := by
  rw [BitVec.extractLsb'_append_eq_of_add_le (Nat.le_of_eq (Nat.zero_add n))]
  exact BitVec.extractLsb'_eq_self

theorem extract_high {m n k l : ℕ} (x : BitVec m) (y : BitVec n) :
    (x ++ y).extractLsb' (n + k) l = x.extractLsb' k l := by
  rw [BitVec.extractLsb'_append_eq_of_le (Nat.le_add_right n k), Nat.add_sub_cancel_left]

/-- The two words of the small fields. -/
theorem extract_fields (len ofs num : BitVec 16) (pad set : BitVec 8) :
    (len ++ ofs).extractLsb' 0 16 = ofs ∧ (len ++ ofs).extractLsb' 16 16 = len ∧
    (pad ++ set ++ num).extractLsb' 0 16 = num ∧ (pad ++ set ++ num).extractLsb' 16 8 = set ∧
    (pad ++ set ++ num).extractLsb' 24 8 = pad :=
  ⟨extract_low _ _, (extract_high (k := 0) len ofs).trans BitVec.extractLsb'_eq_self,
    extract_low _ _, (extract_high (k := 0) (pad ++ set) num).trans (extract_low _ _),
    (extract_high (k := 8) (pad ++ set) num).trans
      ((extract_high (k := 0) pad set).trans BitVec.extractLsb'_eq_self)⟩

theorem header7_setHeader7 : (b.setHeader7 h).header7 = h := by
  obtain ⟨hofs, hlen, hnum, hset, hpad⟩ :=
    extract_fields h.cmdLen h.actOfs h.rulenum h.pad h.set
  exact RuleHeader.ext (append_halves _) (append_halves _) hofs hlen hnum hset hpad
    (append_halves _) (append_halves _) rfl

theorem header8_setHeader8 : (b.setHeader8 h id).header8 = h := by
  obtain ⟨hofs, hlen, hnum, hset, hpad⟩ :=
    extract_fields h.cmdLen h.actOfs h.rulenum h.pad h.set
  exact RuleHeader.ext (append_halves _) (append_halves _) hofs hlen hnum hset hpad
    (append_halves _) (append_halves _) rfl

/-- The fields are before the instructions. -/
theorem header7_congr (hb : ∀ i < cmdOfs7, b i = b' i) : b.header7 = b'.header7 := by
  unfold RuleBuf.header7
  simp only [hb 0 (by decide), hb 1 (by decide), hb 2 (by decide), hb 3 (by decide),
    hb 4 (by decide), hb 5 (by decide), hb 6 (by decide), hb 7 (by decide), hb 8 (by decide),
    hb 9 (by decide), hb 10 (by decide)]

theorem setHeader8_cmd (p : ℕ) : (b.setHeader8 h id).cmd cmdOfs8 p = b.cmd cmdOfs8 p := by
  unfold RuleBuf.cmd cmdOfs8
  rw [Nat.add_comm]
  rfl

theorem renumber_len : (Insn.ofWord (renumber f w)).fLen = (Insn.ofWord w).fLen := by
  unfold Insn.fLen Insn.ofWord renumber
  dsimp only
  have hlen : (w.extractLsb' 8 24 ++ f (opcodeOf w)).extractLsb' 8 8 =
      (w.extractLsb' 8 24).extractLsb' 0 8 := extract_high (k := 0) _ _
  have hword : (w.extractLsb' 8 24).extractLsb' 0 8 = w.extractLsb' 8 8 := by
    ext i hi
    simp [show i < 24 by omega]
  exact congrArg (fun len : BitVec 8 => (len &&& 0x3f#8).toNat) (hlen.trans hword)

/-- Opcode 255 becomes 0. -/
theorem opcode_roundTrip (op : BitVec 8) : opcodeTo7 (opcodeTo8 op) = op ↔ op ≠ 255 := by
  revert op
  decide +kernel

theorem renumber_roundTrip : renumber opcodeTo7 (renumber opcodeTo8 w) = w ↔ opcodeOf w ≠ 255 := by
  have hself : w.extractLsb' 8 24 ++ w.extractLsb' 0 8 = w := BitVec.extractLsb'_append_extractLsb'
  have hlow : ∀ op, opcodeOf (w.extractLsb' 8 24 ++ op) = op := fun op => extract_low _ _
  have hhigh : ∀ op : BitVec 8, (w.extractLsb' 8 24 ++ op).extractLsb' 8 24 = w.extractLsb' 8 24 :=
    fun op => (extract_high (k := 0) (w.extractLsb' 8 24) op).trans BitVec.extractLsb'_eq_self
  rw [← opcode_roundTrip]
  unfold renumber
  rw [hlow, hhigh]
  constructor
  · intro h
    rw [← hlow (opcodeTo7 _), h]
  · intro h
    rw [h]
    exact hself

end header

/-! ### The loop -/

section loop

variable {tmp rule : RuleBuf} {f : BitVec 8 → BitVec 8} {e p q c d fuel error : ℕ} {r : RuleBuf}

theorem lenAt_cmd : lenAt (tmp.cmd c) p = lenAt tmp (c + p) := rfl

/-- An instruction that is visited is not empty and in the buffer, at both places. -/
def Reads (tmp : RuleBuf) (c e p : ℕ) : Prop :=
  ∀ q, Boundary (tmp.cmd c) e p q →
    0 < lenAt (tmp.cmd c) q ∧ cmdOfs8 + q + lenAt (tmp.cmd c) q ≤ ruleMaxWords

theorem Reads.next (h : Reads tmp c e p) (hp : p < e) :
    Reads tmp c e (p + lenAt (tmp.cmd c) p) :=
  fun q hq => h q (.step hp hq)

/-- The loop ends after as many rounds as there are words. -/
theorem convertLoop_ok (hc : c ≤ cmdOfs8) (hd : d ≤ cmdOfs8) (hp : p ≤ e)
    (h : Reads tmp c e p) (hfuel : e - p < fuel) :
    ∃ error r, convertLoop f tmp fuel (e - p) (c + p) (d + p) rule = .returned error r := by
  induction fuel generalizing p rule with
  | zero => exact absurd hfuel (Nat.not_lt_zero _)
  | succ fuel ih =>
    unfold convertLoop
    by_cases hend : e - p = 0
    · rw [if_pos hend]
      exact ⟨_, _, rfl⟩
    obtain ⟨hpos, hfit⟩ := h p (.here (by omega))
    have hnext := h.next (by omega)
    rw [lenAt_cmd] at hpos hfit hnext
    rw [if_neg hend, if_neg (by omega)]
    dsimp only
    rw [if_neg (by omega)]
    split_ifs with htrunc
    · exact ⟨_, _, rfl⟩
    · have hrest := @ih (Function.update
        (rule.bcopy tmp (c + p) (d + p) (lenAt tmp (c + p))) (d + p)
        (renumber f (rule.bcopy tmp (c + p) (d + p) (lenAt tmp (c + p)) (d + p))))
        (p + lenAt tmp (c + p)) (by omega) hnext (by omega)
      rwa [Nat.sub_add_eq, ← Nat.add_assoc, ← Nat.add_assoc] at hrest

/-- What the loop has read when it ends. -/
theorem convertLoop_reads (hcd : c = cmdOfs8 ∨ d = cmdOfs8) (hp : p ≤ e)
    (h : convertLoop f tmp fuel (e - p) (c + p) (d + p) rule = .returned error r) :
    Reads tmp c e p := by
  induction fuel generalizing p rule with
  | zero => cases h
  | succ fuel ih =>
    intro q hq
    have hlt : p < e := Nat.lt_of_le_of_lt hq.le hq.lt
    unfold convertLoop at h
    rw [if_neg (by omega)] at h
    dsimp only at h
    split_ifs at h with hout hfit htrunc
    · -- A truncated instruction is the last one.
      cases hq with
      | here =>
        rw [lenAt_cmd]
        omega
      | step _ hq =>
        have hle := hq.le
        have hlt' := hq.lt
        rw [lenAt_cmd] at hle
        omega
    · rw [← Nat.sub_add_eq, Nat.add_assoc, Nat.add_assoc] at h
      have hrest := ih (by omega) h
      by_cases hzero : lenAt tmp (c + p) = 0
      · -- An instruction without a length is visited again.
        rw [hzero, Nat.add_zero] at hrest
        exact hrest q hq
      · cases hq with
        | here =>
          rw [lenAt_cmd]
          omega
        | step _ hq => exact hrest q hq

/-- The instructions end with the rule, or before it. -/
def Tiles (tmp : RuleBuf) (c e p : ℕ) : Prop :=
  ∀ q, Boundary (tmp.cmd c) e p q → 0 < lenAt (tmp.cmd c) q ∧ q + lenAt (tmp.cmd c) q ≤ e

theorem Tiles.reads (h : Tiles tmp c e p) (he : cmdOfs8 + e ≤ ruleMaxWords) : Reads tmp c e p :=
  fun q hq => by
    obtain ⟨hpos, hle⟩ := h q hq
    exact ⟨hpos, by omega⟩

theorem boundary_step {w : ℕ → BitVec 32} (hp : p < e) (hpq : p < q) :
    Boundary w e p q ↔ Boundary w e (p + lenAt w p) q := by
  constructor
  · intro h
    cases h with
    | here => exact absurd hpq (Nat.lt_irrefl _)
    | step _ h => exact h
  · exact .step hp

/-- What the loop does to a rule whose instructions fill it. -/
theorem convertLoop_copies (hc : c + e ≤ ruleMaxWords) (hd : d + e ≤ ruleMaxWords) (hp : p ≤ e)
    (h : Tiles tmp c e p) (hfuel : e - p < fuel) :
    ∃ r, convertLoop f tmp fuel (e - p) (c + p) (d + p) rule = .returned 0 r ∧
      (∀ i, i < d + p → r i = rule i) ∧
      ∀ q, p ≤ q → q < e →
        (Boundary (tmp.cmd c) e p q → r (d + q) = renumber f (tmp.cmd c q)) ∧
        (¬ Boundary (tmp.cmd c) e p q → r (d + q) = tmp.cmd c q) := by
  induction fuel generalizing p rule with
  | zero => exact absurd hfuel (Nat.not_lt_zero _)
  | succ fuel ih =>
    unfold convertLoop
    by_cases hend : e - p = 0
    · rw [if_pos hend]
      exact ⟨rule, rfl, fun _ _ => rfl, fun q hq hq' => by omega⟩
    obtain ⟨hpos, hle⟩ := h p (.here (by omega))
    have hnext : Tiles tmp c e (p + lenAt (tmp.cmd c) p) := fun q hq => h q (.step (by omega) hq)
    rw [if_neg hend, if_neg (by omega)]
    dsimp only
    rw [← lenAt_cmd, if_neg (by omega), if_neg (by omega)]
    generalize hr₁ : Function.update _ (d + p) _ = r₁
    obtain ⟨r, hloop, hbelow, hcopy⟩ := @ih r₁ (p + lenAt (tmp.cmd c) p) hle hnext (by omega)
    refine ⟨r, ?_, fun i hi => ?_, fun q hq hq' => ?_⟩
    · rwa [Nat.sub_add_eq, ← Nat.add_assoc, ← Nat.add_assoc] at hloop
    · rw [hbelow i (by omega), ← hr₁, Function.update_of_ne (by omega)]
      exact if_neg (by omega)
    · have hfirst : ∀ q, p ≤ q → q < p + lenAt (tmp.cmd c) p →
          rule.bcopy tmp (c + p) (d + p) (lenAt (tmp.cmd c) p) (d + q) = tmp.cmd c q := by
        intro q hq hlt
        have heq : c + p + (d + q - (d + p)) = c + q := by omega
        exact (if_pos (by omega)).trans (congrArg tmp heq)
      by_cases hlt : q < p + lenAt (tmp.cmd c) p
      · rw [hbelow (d + q) (by omega), ← hr₁]
        rcases Nat.eq_or_lt_of_le hq with rfl | hpq
        · rw [Function.update_self, hfirst p le_rfl hlt]
          exact ⟨fun _ => rfl, fun hno => absurd (.here hq') hno⟩
        · rw [Function.update_of_ne (by omega), hfirst q hq hlt]
          refine ⟨fun hb => ?_, fun _ => rfl⟩
          have := ((boundary_step (by omega) hpq).1 hb).le
          omega
      · rw [boundary_step (by omega) (by omega)]
        exact hcopy q (by omega) hq'

/-- The last instruction ends with the rule. -/
theorem Tiles.last (h : Tiles tmp c e p) (hp : p < e) :
    ∃ q, Boundary (tmp.cmd c) e p q ∧ q + lenAt (tmp.cmd c) q = e := by
  induction hn : e - p using Nat.strong_induction_on generalizing p with
  | _ n ih =>
    obtain ⟨hpos, hle⟩ := h p (.here hp)
    rcases Nat.eq_or_lt_of_le hle with heq | hlt
    · exact ⟨p, .here hp, heq⟩
    · obtain ⟨q, hq, hend⟩ := ih _ (by omega) (fun q hq => h q (.step hp hq)) hlt rfl
      exact ⟨q, .step hp hq, hend⟩

theorem Tiles.room (h : Tiles tmp c e 0) (hr : Reads tmp c e 0) : cmdOfs8 + e ≤ ruleMaxWords := by
  rcases Nat.eq_zero_or_pos e with rfl | hpos
  · decide
  · obtain ⟨q, hq, hend⟩ := h.last hpos
    have hfit := (hr q hq).2
    omega

/-- The result does not depend on the number of rounds. -/
theorem convertLoop_mono {n m ll cc dd : ℕ} (hnm : n ≤ m)
    (h : convertLoop f tmp n ll cc dd rule = .returned error r) :
    convertLoop f tmp m ll cc dd rule = .returned error r := by
  induction n generalizing m ll cc dd rule with
  | zero => cases h
  | succ n ih =>
    obtain ⟨m, rfl⟩ := Nat.exists_eq_succ_of_ne_zero (show m ≠ 0 by omega)
    unfold convertLoop at h ⊢
    dsimp only at h ⊢
    split_ifs at h ⊢
    · exact h
    · exact h
    · exact ih (by omega) h

end loop

/-! ### What they promise -/

/-- A call ends, and it does not leave the buffers. -/
def Conversion.Ends (call : ℕ → Conversion) : Prop :=
  ∃ fuel error r, call fuel = .returned error r

namespace RuleBuf

variable {b r : RuleBuf} {n : ℕ}

/-- The instructions of a rule of the 7.2 format fill it. -/
def Valid7 (b : RuleBuf) : Prop :=
  cmdOfs7 + b.header7.cmdLen.toNat ≤ ruleMaxWords ∧ Tiles b cmdOfs7 b.header7.cmdLen.toNat 0

/-- The conversion to the new format and back gives the same rule. -/
def RoundTrips (b : RuleBuf) : Prop :=
  ∃ n m r₈ r₇, convertRuleTo8 true n b = .returned 0 r₈ ∧
    convertRuleTo7 true m r₈ = .returned 0 r₇ ∧ r₇.header7 = b.header7 ∧
    ∀ p < b.header7.cmdLen.toNat, r₇.cmd cmdOfs7 p = b.cmd cmdOfs7 p

theorem convertRuleTo8_eq : (∃ error r, convertRuleTo8 true n b = .returned error r) ↔
    ∃ error r, convertLoop opcodeTo8 b n b.header7.cmdLen.toNat cmdOfs7 cmdOfs8 b =
      .returned error r := by
  unfold convertRuleTo8
  rw [if_neg (by decide)]
  cases convertLoop opcodeTo8 b n b.header7.cmdLen.toNat cmdOfs7 cmdOfs8 b with
  | returned error r => cases error <;> exact iff_of_true ⟨_, _, rfl⟩ ⟨_, _, rfl⟩
  | outside => exact Iff.rfl
  | running => exact Iff.rfl

theorem convertRuleTo8_ends : Conversion.Ends (fun n => convertRuleTo8 true n b) ↔
    Reads b cmdOfs7 b.header7.cmdLen.toNat 0 := by
  unfold Conversion.Ends
  simp only [convertRuleTo8_eq]
  constructor
  · rintro ⟨fuel, error, r, h⟩
    exact convertLoop_reads (p := 0) (.inr rfl) (Nat.zero_le _) h
  · intro h
    exact ⟨_, convertLoop_ok (by decide) (by decide) (Nat.zero_le _) h (Nat.lt_succ_self _)⟩

theorem convertRuleTo7_ends : Conversion.Ends (fun n => convertRuleTo7 true n b) ↔
    Reads b cmdOfs8 b.header7.cmdLen.toNat 0 := by
  unfold Conversion.Ends convertRuleTo7
  constructor
  · rintro ⟨fuel, error, r, h⟩
    exact convertLoop_reads (p := 0) (.inl rfl) (Nat.zero_le _) h
  · intro h
    exact ⟨_, convertLoop_ok (by decide) (by decide) (Nat.zero_le _) h (Nat.lt_succ_self _)⟩

theorem convertRuleTo8_mono {m error : ℕ} (hnm : n ≤ m)
    (h : convertRuleTo8 true n b = .returned error r) :
    convertRuleTo8 true m b = .returned error r := by
  unfold convertRuleTo8 at h ⊢
  rw [if_neg (by decide)] at h ⊢
  cases hloop : convertLoop opcodeTo8 b n b.header7.cmdLen.toNat cmdOfs7 cmdOfs8 b with
  | returned error' r' =>
    rw [hloop] at h
    rw [convertLoop_mono hnm hloop]
    exact h
  | outside =>
    rw [hloop] at h
    cases h
  | running =>
    rw [hloop] at h
    cases h

theorem convertRuleTo7_mono {m error : ℕ} (hnm : n ≤ m)
    (h : convertRuleTo7 true n b = .returned error r) :
    convertRuleTo7 true m b = .returned error r :=
  convertLoop_mono hnm h

/-- A rule that is converted and back has its fields, and its instructions but for the opcodes. -/
theorem roundTrip_spec (hv : b.Valid7) (hroom : cmdOfs8 + b.header7.cmdLen.toNat ≤ ruleMaxWords) :
    ∃ n r₈ r₇, convertRuleTo8 true n b = .returned 0 r₈ ∧
      convertRuleTo7 true n r₈ = .returned 0 r₇ ∧ r₇.header7 = b.header7 ∧
      ∀ q < b.header7.cmdLen.toNat,
        (Boundary (b.cmd cmdOfs7) b.header7.cmdLen.toNat 0 q →
          r₇.cmd cmdOfs7 q = renumber opcodeTo7 (renumber opcodeTo8 (b.cmd cmdOfs7 q))) ∧
        (¬ Boundary (b.cmd cmdOfs7) b.header7.cmdLen.toNat 0 q →
          r₇.cmd cmdOfs7 q = b.cmd cmdOfs7 q) := by
  obtain ⟨-, htiles⟩ := hv
  generalize he : b.header7.cmdLen.toNat = e at htiles hroom ⊢
  have hroom₇ : cmdOfs7 + e ≤ ruleMaxWords := by
    have hle : cmdOfs7 ≤ cmdOfs8 := by decide
    omega
  obtain ⟨r, hto8, -, hcopy⟩ := @convertLoop_copies b b opcodeTo8 e 0 cmdOfs7 cmdOfs8 (e + 1)
    hroom₇ hroom (Nat.zero_le _) htiles (Nat.lt_succ_self _)
  -- The rule in the new format has its instructions at the same places.
  have hheader : (r.setHeader8 b.header7 0).header8 = b.header7 := header8_setHeader8
  have hcmd (q : ℕ) : (r.setHeader8 b.header7 0).cmd cmdOfs8 q = r.cmd cmdOfs8 q :=
    setHeader8_cmd q
  have hto8' : convertRuleTo8 true (e + 1) b = .returned 0 (r.setHeader8 b.header7 0) := by
    unfold convertRuleTo8
    rw [if_neg (by decide), he]
    rw [show convertLoop opcodeTo8 b (e + 1) e cmdOfs7 cmdOfs8 b = _ from hto8]
    rfl
  generalize r.setHeader8 b.header7 0 = r₈ at hheader hcmd hto8'
  have hlen : ∀ q, Boundary (b.cmd cmdOfs7) e 0 q →
      lenAt (r₈.cmd cmdOfs8) q = lenAt (b.cmd cmdOfs7) q := by
    intro q hq
    unfold lenAt
    rw [hcmd q, show r.cmd cmdOfs8 q = _ from (hcopy q (Nat.zero_le _) hq.lt).1 hq, renumber_len]
  have hsame (q : ℕ) : Boundary (r₈.cmd cmdOfs8) e 0 q ↔ Boundary (b.cmd cmdOfs7) e 0 q :=
    Boundary.congr_len_iff hlen
  have htiles₈ : Tiles r₈ cmdOfs8 e 0 := fun q hq => by
    have hq' := (hsame q).1 hq
    rw [hlen q hq']
    exact htiles q hq'
  obtain ⟨r₇, hto7, hbelow, hcopy₇⟩ := @convertLoop_copies r₈ (r₈.setHeader7 r₈.header8) opcodeTo7
    e 0 cmdOfs8 cmdOfs7 (e + 1) hroom hroom₇ (Nat.zero_le _) htiles₈ (Nat.lt_succ_self _)
  refine ⟨e + 1, r₈, r₇, hto8', ?_, ?_, fun q hq => ?_⟩
  · unfold convertRuleTo7
    rw [if_neg (by decide), show r₈.header8.cmdLen.toNat = e by rw [hheader, he]]
    exact hto7
  · rw [@header7_congr _ (r₈.setHeader7 r₈.header8) hbelow, header7_setHeader7, hheader]
  · obtain ⟨hyes, hno⟩ := hcopy₇ q (Nat.zero_le _) hq
    obtain ⟨hyes₈, hno₈⟩ := hcopy q (Nat.zero_le _) hq
    rw [hsame] at hyes hno
    refine ⟨fun hb => ?_, fun hb => ?_⟩
    · rw [show r₇.cmd cmdOfs7 q = _ from hyes hb, hcmd, show r.cmd cmdOfs8 q = _ from hyes₈ hb]
    · rw [show r₇.cmd cmdOfs7 q = _ from hno hb, hcmd, show r.cmd cmdOfs8 q = _ from hno₈ hb]

/-- A rule that fits in the buffer survives unless it has the opcode 255. -/
theorem survives_iff (hv : b.Valid7) (hroom : cmdOfs8 + b.header7.cmdLen.toNat ≤ ruleMaxWords) :
    b.RoundTrips ↔ ∀ p, Boundary (b.cmd cmdOfs7) b.header7.cmdLen.toNat 0 p →
      opcodeOf (b.cmd cmdOfs7 p) ≠ 255 := by
  obtain ⟨n, r₈, r₇, hto8, hto7, hheader, hcmd⟩ := roundTrip_spec hv hroom
  constructor
  · rintro ⟨n', m', s₈, s₇, hto8', hto7', -, hcmd'⟩ p hp
    have hto8 := convertRuleTo8_mono (le_max_left n n') hto8
    obtain ⟨-, rfl⟩ := Conversion.returned.inj
      (hto8.symm.trans (convertRuleTo8_mono (le_max_right n n') hto8'))
    have hto7 := convertRuleTo7_mono (le_max_left n m') hto7
    obtain ⟨-, rfl⟩ := Conversion.returned.inj
      (hto7.symm.trans (convertRuleTo7_mono (le_max_right n m') hto7'))
    rw [← renumber_roundTrip, ← (hcmd p hp.lt).1 hp]
    exact hcmd' p hp.lt
  · intro hop
    refine ⟨n, n, r₈, r₇, hto8, hto7, hheader, fun p hp => ?_⟩
    by_cases hb : Boundary (b.cmd cmdOfs7) b.header7.cmdLen.toNat 0 p
    · rw [(hcmd p hp).1 hb, renumber_roundTrip]
      exact hop p hb
    · exact (hcmd p hp).2 hb

end RuleBuf

/-- **The conversions of rules.** Both end within the buffers exactly if the instructions that they
visit have a length and end before the buffer, also in the longer format; and the rules that they
preserve are then the ones without the opcode 255. -/
theorem convertRule_iff (b : RuleBuf) :
    (Conversion.Ends (fun n => convertRuleTo8 true n b) ∧
      Conversion.Ends (fun n => convertRuleTo7 true n b) ∧ (b.Valid7 → b.RoundTrips)) ↔
    (Reads b cmdOfs7 b.header7.cmdLen.toNat 0 ∧ Reads b cmdOfs8 b.header7.cmdLen.toNat 0 ∧
      (b.Valid7 → ∀ p, Boundary (b.cmd cmdOfs7) b.header7.cmdLen.toNat 0 p →
        opcodeOf (b.cmd cmdOfs7 p) ≠ 255)) := by
  rw [RuleBuf.convertRuleTo8_ends, RuleBuf.convertRuleTo7_ends]
  refine and_congr_right fun hreads => and_congr_right fun _ => ?_
  exact forall_congr' fun hv => RuleBuf.survives_iff hv (hv.2.room hreads)

/-- A rule of one word, with an instruction without a length. -/
def emptyInsnRule : RuleBuf := fun i => if i = 4 then 0x10000 else 0

/-- **An empty instruction** is visited again and again. -/
theorem not_convertRule : ¬ ∀ b : RuleBuf, Conversion.Ends (fun n => convertRuleTo8 true n b) ∧
    Conversion.Ends (fun n => convertRuleTo7 true n b) ∧ (b.Valid7 → b.RoundTrips) := by
  intro hall
  have hreads := RuleBuf.convertRuleTo8_ends.1 (hall emptyInsnRule).1
  exact absurd (hreads 0 (.here (by decide))).1 (by decide)

end Ipfw
