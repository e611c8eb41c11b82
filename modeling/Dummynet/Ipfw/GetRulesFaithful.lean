import Dummynet.Ipfw.GetRules

/-!
# Faithful listings of the rules

In the normal format the answer shows all rules and all dynamic rules. For a tool of the 7.2 format
each conversion copies 1024 bytes from its place in the answer, and with pointers of 64 bits the
copy of a rule lacks its last word.

## Main definitions

* `ConvertsFrom`, `Listable`: the conversions stay inside of the answer.

## Main results

* `faithful_iff`: when the answer is faithful.
-/

namespace Ipfw.GetRules

variable {L : Layout} {is7 : Bool} {env : KEnv} {space fuel : ℕ} {C : KChain L} {D : KDynTable}
  {r buf buf' tmp : RuleBuf} {rs : List (KRule L)} {bp bp' m c : ℕ}

/-- From a place in the answer on, there are 1024 bytes for the conversion of each rule, and the
rule does not have more. -/
def ConvertsFrom (L : Layout) (space : ℕ) : List (KRule L) → ℕ → Prop
  | [], _ => True
  | r :: rs, bp => bp + ruleMaxWords ≤ space ∧ L.ruleWords false r.words ≤ ruleMaxWords ∧
      ConvertsFrom L space rs (bp + L.ruleWords true r.words)

/-- The format is the normal one, or pointers have 32 bits and the conversions stay inside of the
answer and of their copies. -/
def Listable (L : Layout) (is7 : Bool) (C : KChain L) (D : KDynTable) : Prop :=
  is7 = true → L = .ilp32 ∧ ConvertsFrom L (GetRules.space L C D) C.rules 0

/-! ### Sizes -/

theorem ruleWords_le : L.ruleWords true r ≤ L.ruleWords is7 r := by
  cases is7 with
  | true => exact le_rfl
  | false =>
    unfold Layout.ruleWords Layout.cmdOfs Layout.counterOfs
    simp

theorem ruleWords_pos : 0 < L.ruleWords is7 r := by
  unfold Layout.ruleWords Layout.cmdOfs
  omega

theorem ruleWords_ilp32 : Layout.ilp32.ruleWords false r = Layout.ilp32.ruleWords true r + 1 := by
  unfold Layout.ruleWords Layout.cmdOfs Layout.counterOfs
  simp only [Layout.ptr]
  simp
  omega

theorem ruleWords_lp64 : Layout.lp64.ruleWords false r = Layout.lp64.ruleWords true r + 2 := by
  unfold Layout.ruleWords Layout.cmdOfs Layout.counterOfs
  simp only [Layout.ptr]
  simp
  omega

theorem space_eq : GetRules.space L C D = (C.rules.map fun r => L.ruleWords false r.words).sum +
    L.dynWords * D.entries.length := by
  unfold GetRules.space
  rw [C.counted, D.counted, Nat.mul_left_comm, ← Nat.mul_add,
    Nat.mul_div_cancel_left _ (by decide), Nat.mul_comm L.dynWords]

/-! ### Records -/

theorem RulesAt.le (h : RulesAt L is7 buf rs bp m) : bp ≤ m := by
  induction rs generalizing bp with
  | nil => exact Nat.le_of_eq h
  | cons r rs ih => exact le_trans (Nat.le_add_right _ _) (ih h.2)

theorem RulesAt.congr (h : RulesAt L is7 buf rs bp m) (hbuf : ∀ i < m, buf' i = buf i) :
    RulesAt L is7 buf' rs bp m := by
  induction rs generalizing bp with
  | nil => exact h
  | cons r rs ih =>
    have hle := h.2.le
    rw [h.1.cmdLen] at hle
    have hshows : Shows L is7 buf' bp r.words := h.1.congr fun i hi => hbuf _ (by omega)
    refine ⟨hshows, ?_⟩
    rw [hshows.cmdLen, ← h.1.cmdLen]
    exact ih h.2

/-- A rule that is shown stays shown while the others are copied behind it. -/
theorem getStatic_cons {r : KRule L}
    (hr : getRule L is7 env space fuel r.words bp buf =
      .next (bp + L.ruleWords is7 r.words) buf')
    (hshows : Shows L is7 buf' bp r.words) {w : RuleBuf}
    (hrs : getStatic L is7 env space fuel rs (bp + L.ruleWords is7 r.words) buf' = .stop m w)
    (hall : RulesAt L is7 w rs (bp + L.ruleWords is7 r.words) m) :
    getStatic L is7 env space fuel (r :: rs) bp buf = .stop m w ∧
      RulesAt L is7 w (r :: rs) bp m := by
  have hshows' : Shows L is7 w bp r.words :=
    hshows.congr fun i hi => (getStatic_frame hrs).2 _ (by omega)
  refine ⟨by rw [getStatic, hr]; exact hrs, hshows', ?_⟩
  rwa [hshows'.cmdLen]

/-- The normal format. -/
theorem getStatic_normal
    (hfit : bp + (rs.map fun r => L.ruleWords false r.words).sum ≤ space) :
    ∃ m buf', getStatic L false env space fuel rs bp buf = .stop m buf' ∧
      RulesAt L false buf' rs bp m ∧
      m = bp + (rs.map fun r => L.ruleWords false r.words).sum := by
  induction rs generalizing bp buf with
  | nil => exact ⟨bp, buf, rfl, rfl, rfl⟩
  | cons r rs ih =>
    rw [List.map_cons, List.sum_cons] at hfit ⊢
    have hr : getRule L false env space fuel r.words bp buf = .next (bp + L.ruleWords false r.words)
        (finish L false env (buf.bcopy r.words 0 bp (L.ruleWords false r.words)) bp) := by
      unfold getRule
      rw [if_neg (by decide), if_neg (by omega)]
    obtain ⟨m, w, hrs, hall, hm⟩ := @ih
      (finish L false env (buf.bcopy r.words 0 bp (L.ruleWords false r.words)) bp)
      (bp + L.ruleWords false r.words) (by omega)
    obtain ⟨hget, hat⟩ := getStatic_cons hr shows_bcopy.finish hrs hall
    exact ⟨m, w, hget, hat, by omega⟩

/-! ### Conversions -/

/-- What a conversion makes of a rule that fits into its copy. -/
theorem convertTo7_copies (hc : L.cmdLen tmp = c) (hroom : L.cmdOfs false + c ≤ ruleMaxWords)
    (ht : Tiles tmp (L.cmdOfs false) c 0) (hfuel : c < fuel) :
    ∃ w, convertTo7 L fuel tmp = .returned 0 w ∧ (∀ i < 2 * L.ptr + 2, w i = tmp i) ∧
      (∀ i < 5, w (2 * L.ptr + 2 + i) = tmp (2 * L.ptr + 2 + L.ptr + i)) ∧
      ∀ q < c, (Boundary (tmp.cmd (L.cmdOfs false)) c 0 q →
          w (L.cmdOfs true + q) = renumber opcodeTo7 (tmp.cmd (L.cmdOfs false) q)) ∧
        (¬ Boundary (tmp.cmd (L.cmdOfs false)) c 0 q →
          w (L.cmdOfs true + q) = tmp.cmd (L.cmdOfs false) q) := by
  have hd : L.cmdOfs true = 2 * L.ptr + 2 + 5 := rfl
  have hle : L.cmdOfs true ≤ L.cmdOfs false := by
    unfold Layout.cmdOfs Layout.counterOfs
    simp
  obtain ⟨w, hloop, hbelow, hcopy⟩ := @convertLoop_copies tmp (setHeader7 L tmp) opcodeTo7 c 0
    (L.cmdOfs false) (L.cmdOfs true) fuel hroom (by omega) (Nat.zero_le _) ht hfuel
  refine ⟨w, ?_, fun i hi => ?_, fun i hi => ?_, fun q hq => hcopy q (Nat.zero_le _) hq⟩
  · rw [convertTo7, hc]
    exact hloop
  · rw [hbelow i (by omega), setHeader7, if_neg (by omega)]
  · rw [hbelow _ (by omega), setHeader7, if_pos (by omega)]
    congr 1
    omega

/-- A conversion that returns had all instructions in its copy. -/
theorem convertLoop_room {f : BitVec 8 → BitVec 8} {tmp rule w : RuleBuf} {c d e p error : ℕ}
    (hp : p < e) (ht : Tiles tmp c e p)
    (h : convertLoop f tmp fuel (e - p) (c + p) (d + p) rule = .returned error w) :
    c + e ≤ ruleMaxWords := by
  induction fuel generalizing p rule with
  | zero => cases h
  | succ fuel ih =>
    obtain ⟨hpos, hle⟩ := ht p (.here hp)
    have hnext : Tiles tmp c e (p + lenAt (tmp.cmd c) p) := fun q hq => ht q (.step hp hq)
    unfold convertLoop at h
    rw [if_neg (by omega)] at h
    dsimp only at h
    rw [← lenAt_cmd] at h
    split_ifs at h with hout hfit htrunc
    · omega
    · rcases Nat.eq_or_lt_of_le hle with heq | hlt
      · omega
      · rw [← Nat.sub_add_eq, Nat.add_assoc, Nat.add_assoc] at h
        exact ih hlt hnext h

theorem convertTo7_room {w : RuleBuf} {error : ℕ} (hc : L.cmdLen tmp = c) (hpos : 0 < c)
    (ht : Tiles tmp (L.cmdOfs false) c 0) (h : convertTo7 L fuel tmp = .returned error w) :
    L.cmdOfs false + c ≤ ruleMaxWords := by
  unfold convertTo7 at h
  rw [hc] at h
  exact convertLoop_room hpos ht h

/-- The instructions in another buffer with the same words. -/
theorem Tiles.congr_words {tmp' : RuleBuf} {o e : ℕ} (h : Tiles tmp o e 0)
    (hlen : ∀ q < e, lenAt (tmp'.cmd o) q = lenAt (tmp.cmd o) q) : Tiles tmp' o e 0 := by
  intro q hq
  have hq' : Boundary (tmp.cmd o) e 0 q :=
    (Boundary.congr_len_iff fun x hx => hlen x hx.lt).1 hq
  rw [hlen q hq'.lt]
  exact h q hq'

/-- The place of a rule after its words were copied from a rule. -/
theorem window_bcopy {n i : ℕ} (h : i < n) : window (buf.bcopy r 0 bp n) bp i = r i := by
  rw [window, bcopy_add h, Nat.zero_add]

/-- With pointers of 32 bits the whole rule is copied, and its conversion shows it. -/
theorem getRule_seven (r : KRule .ilp32) (hspace : bp + ruleMaxWords ≤ space)
    (hroom : Layout.ilp32.ruleWords false r.words ≤ ruleMaxWords) (hfuel : ruleMaxWords < fuel) :
    ∃ buf', getRule .ilp32 true env space fuel r.words bp buf =
        .next (bp + Layout.ilp32.ruleWords true r.words) buf' ∧
      Shows .ilp32 true buf' bp r.words := by
  have hsize := ruleWords_ilp32 (r := r.words)
  have hcmd : Layout.ilp32.ruleWords false r.words = 10 + Layout.ilp32.cmdLen r.words := rfl
  generalize hn : Layout.ilp32.ruleWords true r.words + 1 = n at hsize
  have hsame : ∀ i < n, window (buf.bcopy r.words 0 bp n) bp i = r.words i := fun i hi =>
    window_bcopy hi
  generalize htmp : window (buf.bcopy r.words 0 bp n) bp = tmp at hsame
  have hc : Layout.ilp32.cmdLen tmp = Layout.ilp32.cmdLen r.words := by
    unfold Layout.cmdLen
    rw [hsame _ (by simp only [Layout.ptr]; omega)]
  have hwords : ∀ q < Layout.ilp32.cmdLen r.words, tmp (10 + q) = r.words (10 + q) :=
    fun q hq => hsame _ (by omega)
  have htiles : Tiles tmp (Layout.ilp32.cmdOfs false) (Layout.ilp32.cmdLen r.words) 0 :=
    Tiles.congr_words r.tiles fun q hq => congrArg (fun w => (Insn.ofWord w).fLen) (hwords q hq)
  have hb : ∀ q, Boundary (tmp.cmd (Layout.ilp32.cmdOfs false)) (Layout.ilp32.cmdLen r.words) 0 q ↔
      Boundary (r.words.cmd (Layout.ilp32.cmdOfs false)) (Layout.ilp32.cmdLen r.words) 0 q :=
    fun q => Boundary.congr_iff fun x hx => hwords x hx.lt
  have hfuel' : Layout.ilp32.cmdLen r.words < fuel := by omega
  obtain ⟨w, hconv, hbelow, hcounters, hcopy⟩ := convertTo7_copies hc hroom htiles hfuel'
  have hput : ∀ i < ruleMaxWords, putWindow (buf.bcopy r.words 0 bp n) bp w (bp + i) = w i :=
    fun i hi => by rw [putWindow, bcopy_add hi, Nat.zero_add]
  have hshows : Shows .ilp32 true (putWindow (buf.bcopy r.words 0 bp n) bp w) bp r.words := by
    refine ⟨?_, ?_, fun i hi => ?_, fun q hq => ?_⟩
    · rw [hput _ (by decide), hbelow _ (by decide), hsame _ (by simp only [Layout.ptr]; omega)]
    · rw [hput _ (by decide), hbelow _ (by decide), hsame _ (by simp only [Layout.ptr]; omega)]
    · have hcounter := hcounters i (by omega)
      change w (4 + i) = tmp (5 + i) at hcounter
      change putWindow (buf.bcopy r.words 0 bp n) bp w (bp + (4 + i)) = r.words (5 + i)
      rw [hput _ (by unfold ruleMaxWords; omega), hcounter, hsame _ (by omega)]
    · have hword : putWindow (buf.bcopy r.words 0 bp n) bp w
          (bp + (Layout.ilp32.cmdOfs true + q)) = w (Layout.ilp32.cmdOfs true + q) :=
        hput _ (by change 9 + q < _; omega)
      have htmpq : tmp.cmd (Layout.ilp32.cmdOfs false) q =
        r.words.cmd (Layout.ilp32.cmdOfs false) q := hwords q hq
      have hcopyq := hcopy q hq
      rw [hb q, htmpq, ← hword] at hcopyq
      exact hcopyq
  refine ⟨finish .ilp32 true env (putWindow (buf.bcopy r.words 0 bp n) bp w) bp, ?_,
    hshows.finish⟩
  unfold getRule
  dsimp only
  rw [if_pos rfl, if_pos (by omega), hn, if_neg (by omega), htmp, hconv]
  rfl

/-- The 7.2 format with pointers of 32 bits. -/
theorem getStatic_seven {rs : List (KRule .ilp32)} (hfuel : ruleMaxWords < fuel)
    (h : ConvertsFrom .ilp32 space rs bp) :
    ∃ m buf', getStatic .ilp32 true env space fuel rs bp buf = .stop m buf' ∧
      RulesAt .ilp32 true buf' rs bp m ∧
      m ≤ bp + (rs.map fun r => Layout.ilp32.ruleWords false r.words).sum := by
  induction rs generalizing bp buf with
  | nil => exact ⟨bp, buf, rfl, rfl, le_rfl⟩
  | cons r rs ih =>
    obtain ⟨hspace, hroom, hrest⟩ := h
    obtain ⟨buf₁, hr, hshows⟩ := @getRule_seven env space fuel buf bp r hspace hroom hfuel
    obtain ⟨m, w, hrs, hall, hm⟩ := @ih buf₁ _ hrest
    obtain ⟨hget, hat⟩ := getStatic_cons hr hshows hrs hall
    have hsize := ruleWords_ilp32 (r := r.words)
    refine ⟨m, w, hget, hat, ?_⟩
    rw [List.map_cons, List.sum_cons]
    omega

/-! ### Faithful answers -/

/-- The dynamic rules come behind the rules. -/
theorem faithful_of_static (hfuel : ∀ mem : Alloc L (GetRules.space L C D), ∃ fuel m buf,
      getStatic L is7 env (GetRules.space L C D) fuel C.rules 0 mem.init = .stop m buf ∧
      RulesAt L is7 buf C.rules 0 m ∧
      m ≤ 0 + (C.rules.map fun r => L.ruleWords false r.words).sum) :
    Faithful L is7 env C D := by
  intro valsize mem hval
  obtain ⟨fuel, m, buf, hget, hat, hm⟩ := hfuel mem
  have hspace := space_eq (C := C) (D := D)
  obtain ⟨buf', hdyn, hsame, hall⟩ := @markLast_shows L env (GetRules.space L C D) mem.base
    D.entries buf m mem.nonnull (by omega)
  refine ⟨fuel, _, _, m, ?_, hat.congr hsame, rfl, hall⟩
  rw [ipfwGet, if_neg (by omega), getrules, hget]
  dsimp only
  rw [hdyn]

theorem faithful_of_listable (h : Listable L is7 C D) : Faithful L is7 env C D := by
  refine faithful_of_static fun mem => ?_
  cases is7 with
  | false =>
    obtain ⟨m, buf, hget, hat, hm⟩ := @getStatic_normal L env (GetRules.space L C D) 0 mem.init
      C.rules 0 (by rw [space_eq]; omega)
    exact ⟨0, m, buf, hget, hat, Nat.le_of_eq hm⟩
  | true =>
    obtain ⟨rfl, hconv⟩ := h rfl
    obtain ⟨m, buf, hget, hat, hm⟩ := @getStatic_seven env (GetRules.space .ilp32 C D)
      (ruleMaxWords + 1) mem.init 0 C.rules (Nat.lt_succ_self _) hconv
    exact ⟨_, m, buf, hget, hat, hm⟩

/-! ### Answers that are not faithful -/

/-- An answer that shows the rules comes from a loop that has copied them. -/
theorem static_of_reply {mem : Alloc L (GetRules.space L C D)} {valsize words : ℕ}
    (h : ipfwGet L is7 env C D valsize fuel mem = some (.reply words buf))
    (hat : RulesAt L is7 buf C.rules 0 m) (hwords : words = m + L.dynWords * D.entries.length) :
    ∃ b w, getStatic L is7 env (GetRules.space L C D) fuel C.rules 0 mem.init = .stop b w ∧
      ∀ i < b, buf i = w i := by
  rw [ipfwGet] at h
  split_ifs at h
  have h := Option.some.inj h
  rw [getrules] at h
  cases hget : getStatic L is7 env (GetRules.space L C D) fuel C.rules 0 mem.init with
  | next b w => exact absurd hget getStatic_ne_next
  | stop b w =>
    refine ⟨b, w, rfl, fun i hi => ?_⟩
    rw [hget] at h
    dsimp only at h
    rcases hd : getDyn L env (GetRules.space L C D) mem.base D.entries b w none with ⟨e, w', last⟩
    rw [hd] at h
    obtain ⟨-, rfl⟩ := Answer.reply.inj h
    obtain ⟨hsame, hlast⟩ := getDyn_frame hd
    rcases hlast with rfl | ⟨a, rfl, ha⟩
    · exact hsame i hi
    · rw [markLast, bcopy_of_lt (by omega)]
      exact hsame i hi
  | failed =>
    -- a failed conversion makes an empty answer, but there is a rule
    rw [hget] at h
    obtain ⟨rfl, -⟩ := Answer.reply.inj h
    obtain ⟨r, rs, hrs⟩ := List.exists_cons_of_ne_nil C.rules_ne
    rw [hrs] at hat
    have hle := hat.2.le
    have hpos : 0 < L.ruleWords is7 (window buf 0) := ruleWords_pos
    omega
  | outside =>
    rw [hget] at h
    cases h
  | running =>
    rw [hget] at h
    cases h

/-- With pointers of 32 bits, a loop that has copied the rules has converted them. -/
theorem convertsFrom_of_stop {rs : List (KRule .ilp32)}
    (hfit : bp + (rs.map fun r => Layout.ilp32.ruleWords false r.words).sum ≤ space)
    (h : getStatic .ilp32 true env space fuel rs bp buf = .stop m buf') :
    ConvertsFrom .ilp32 space rs bp := by
  induction rs generalizing bp buf with
  | nil => trivial
  | cons r rs ih =>
    have hsize := ruleWords_ilp32 (r := r.words)
    rw [List.map_cons, List.sum_cons] at hfit
    rw [getStatic] at h
    unfold getRule at h
    dsimp only at h
    rw [if_pos rfl, if_pos (by omega)] at h
    generalize hn : Layout.ilp32.ruleWords true r.words + 1 = n at hsize h
    split_ifs at h with hspace
    have hcmd : Layout.ilp32.ruleWords false r.words = 10 + Layout.ilp32.cmdLen r.words := rfl
    have hsame : ∀ i < n, window (buf.bcopy r.words 0 bp n) bp i = r.words i := fun i hi =>
      window_bcopy hi
    generalize window (buf.bcopy r.words 0 bp n) bp = tmp at hsame h
    have hc : Layout.ilp32.cmdLen tmp = Layout.ilp32.cmdLen r.words := by
      unfold Layout.cmdLen
      rw [hsame _ (by simp only [Layout.ptr]; omega)]
    have htiles : Tiles tmp (Layout.ilp32.cmdOfs false) (Layout.ilp32.cmdLen r.words) 0 :=
      Tiles.congr_words r.tiles fun q hq =>
        congrArg (fun w => (Insn.ofWord w).fLen) (hsame (10 + q) (by omega))
    cases hconv : convertTo7 .ilp32 fuel tmp with
    | returned error w =>
      rw [hconv] at h
      have hroom := convertTo7_room hc r.pos htiles hconv
      cases error with
      | zero => exact ⟨not_lt.1 hspace, hroom, ih (by omega) h⟩
      | succ error => cases h
    | outside =>
      rw [hconv] at h
      cases h
    | running =>
      rw [hconv] at h
      cases h

/-- With pointers of 64 bits, the last word of the first rule is what was in the buffer before, if
that has the length of an instruction like the last word, and an opcode that stays. -/
theorem lp64_last (r : KRule .lp64) {g : BitVec 32}
    (hlen : (Insn.ofWord g).fLen = (Insn.ofWord
      (r.words.cmd (Layout.lp64.cmdOfs false) (Layout.lp64.cmdLen r.words - 1))).fLen)
    (hop : renumber opcodeTo7 g = g) (hfit : Layout.lp64.ruleWords false r.words ≤ space)
    (h : getRule .lp64 true env space fuel r.words 0 (fun _ => g) = .next bp' buf') :
    bp' = Layout.lp64.ruleWords true r.words ∧
      buf' (Layout.lp64.cmdOfs true + (Layout.lp64.cmdLen r.words - 1)) = g := by
  have hsize := ruleWords_lp64 (r := r.words)
  have hcmd : Layout.lp64.ruleWords false r.words = 13 + Layout.lp64.cmdLen r.words := rfl
  have hpos := r.pos
  unfold getRule at h
  dsimp only at h
  rw [if_pos rfl, if_pos (by omega)] at h
  generalize hn : Layout.lp64.ruleWords true r.words + 1 = n at h
  split_ifs at h with hspace
  have hsame : ∀ i < n, window (RuleBuf.bcopy (fun _ => g) r.words 0 0 n) 0 i = r.words i :=
    fun i hi => window_bcopy hi
  have hlast : window (RuleBuf.bcopy (fun _ => g) r.words 0 0 n) 0
      (13 + (Layout.lp64.cmdLen r.words - 1)) = g := by
    rw [window, bcopy_of_ge (by omega)]
  generalize window (RuleBuf.bcopy (fun _ => g) r.words 0 0 n) 0 = tmp at hsame hlast h
  have hc : Layout.lp64.cmdLen tmp = Layout.lp64.cmdLen r.words := by
    unfold Layout.cmdLen
    rw [hsame _ (by simp only [Layout.ptr]; omega)]
  have htiles : Tiles tmp (Layout.lp64.cmdOfs false) (Layout.lp64.cmdLen r.words) 0 := by
    refine Tiles.congr_words r.tiles fun q hq => ?_
    rcases Nat.eq_or_lt_of_le (show q ≤ Layout.lp64.cmdLen r.words - 1 by omega) with rfl | hlt
    · exact (congrArg (fun w => (Insn.ofWord w).fLen) hlast).trans hlen
    · exact congrArg (fun w => (Insn.ofWord w).fLen) (hsame (13 + q) (by omega))
  cases hconv : convertTo7 .lp64 fuel tmp with
  | returned error w =>
    rw [hconv] at h
    cases error with
    | zero =>
      obtain ⟨rfl, rfl⟩ := Got.next.inj h
      have hroom := convertTo7_room hc r.pos htiles hconv
      obtain ⟨w', hconv', -, -, hcopy⟩ := convertTo7_copies hc hroom htiles
        (Nat.lt_succ_self (Layout.lp64.cmdLen r.words))
      have hw : w = w' := by
        have hmax := convertLoop_mono (Nat.le_max_left fuel (Layout.lp64.cmdLen r.words).succ) hconv
        have hmax' := convertLoop_mono (Nat.le_max_right fuel _) hconv'
        exact (Conversion.returned.inj (hmax.symm.trans hmax')).2
      refine ⟨Nat.zero_add _, ?_⟩
      have hofs : Layout.lp64.cmdOfs true = 11 := rfl
      have hofs8 : Layout.lp64.cmdOfs false = 13 := rfl
      have htime : Layout.lp64.timestampOfs true = 10 := rfl
      have hptr : Layout.lp64.ptr = 2 := rfl
      rw [finish_of_ne (by omega) (by omega), putWindow, bcopy_of_mem (Nat.zero_le _)
        (by omega), Nat.zero_add, Nat.sub_zero, hw]
      obtain ⟨hyes, hno⟩ := hcopy (Layout.lp64.cmdLen r.words - 1) (by omega)
      have hg : tmp.cmd (Layout.lp64.cmdOfs false) (Layout.lp64.cmdLen r.words - 1) = g := hlast
      rw [hg] at hyes hno
      by_cases hb : Boundary (tmp.cmd (Layout.lp64.cmdOfs false)) (Layout.lp64.cmdLen r.words) 0
          (Layout.lp64.cmdLen r.words - 1)
      · exact (hyes hb).trans hop
      · exact hno hb
    | succ error => cases h
  | outside =>
    rw [hconv] at h
    cases h
  | running =>
    rw [hconv] at h
    cases h

/-- An instruction with opcode 0 or 1 keeps its opcode. -/
theorem renumber_small {w : BitVec 32} {op : BitVec 8} (hop : op ≤ oNat) :
    renumber opcodeTo7 (renumber (fun _ => op) w) = renumber (fun _ => op) w := by
  have hlow : opcodeOf (w.extractLsb' 8 24 ++ op) = op := extract_low _ _
  have hhigh : (w.extractLsb' 8 24 ++ op).extractLsb' 8 24 = w.extractLsb' 8 24 :=
    (extract_high (k := 0) (w.extractLsb' 8 24) op).trans BitVec.extractLsb'_eq_self
  unfold renumber
  rw [hlow, hhigh, opcodeTo7, if_neg (BitVec.not_lt.2 hop)]

/-- In the 7.2 format a rule that does not fit is passed over. -/
theorem getRule_seven_ne_stop : getRule L true env space fuel r bp buf ≠ .stop bp' buf' := by
  intro h
  unfold getRule at h
  dsimp only at h
  split_ifs at h
  · split at h <;> cases h
  · exact absurd rfl ‹_›

/-- With pointers of 64 bits, the answer in the 7.2 format depends on what was in its memory. -/
theorem not_faithful_lp64 {C : KChain .lp64} : ¬ Faithful .lp64 true env C D := by
  intro hall
  obtain ⟨r, rs, hrs⟩ := List.exists_cons_of_ne_nil C.rules_ne
  generalize hlastw : r.words.cmd (Layout.lp64.cmdOfs false) (Layout.lp64.cmdLen r.words - 1) = last
  have hspace := space_eq (C := C) (D := D)
  rw [hrs, List.map_cons, List.sum_cons] at hspace
  have hpos := r.pos
  have hshown : ∀ op : BitVec 8, op ≤ oNat → ShowsWord .lp64 true r.words
      (Layout.lp64.cmdLen r.words - 1) (renumber (fun _ => op) last) := by
    intro op hop
    obtain ⟨fuel, words, buf, m, hget, hat, hwords, -⟩ := hall _
      ⟨1, fun i _ => by
        simp only [Layout.ptr]
        omega, fun _ => renumber (fun _ => op) last⟩ (Nat.lt_succ_self _)
    obtain ⟨b, w, hstatic, hbuf⟩ := static_of_reply hget hat hwords
    rw [hrs, getStatic] at hstatic
    cases hr : getRule .lp64 true env (GetRules.space .lp64 C D) fuel r.words 0
        (fun _ => renumber (fun _ => op) last) with
    | next bp' buf' =>
      rw [hr] at hstatic
      obtain ⟨rfl, hword⟩ := lp64_last r (by rw [renumber_len, hlastw]) (renumber_small hop)
        (by omega) hr
      obtain ⟨hle, hsame⟩ := getStatic_frame hstatic
      have hofs : Layout.lp64.ruleWords true r.words =
        Layout.lp64.cmdOfs true + Layout.lp64.cmdLen r.words := rfl
      rw [hrs] at hat
      have hcmd := hat.1.cmd (Layout.lp64.cmdLen r.words - 1) (by omega)
      rwa [Nat.zero_add, hbuf _ (by omega), hsame _ (by omega), hword] at hcmd
    | stop bp' buf' => exact absurd hr getRule_seven_ne_stop
    | failed =>
      rw [hr] at hstatic
      cases hstatic
    | outside =>
      rw [hr] at hstatic
      cases hstatic
    | running =>
      rw [hr] at hstatic
      cases hstatic
  have h0 := hshown 0 (by decide)
  have h1 := hshown 1 (by decide)
  have heq : renumber (fun _ => 0) last = renumber (fun _ => 1) last := by
    by_cases hb : Boundary (r.words.cmd (Layout.lp64.cmdOfs false)) (Layout.lp64.cmdLen r.words) 0
        (Layout.lp64.cmdLen r.words - 1)
    · exact (h0.1 hb).trans (h1.1 hb).symm
    · exact (h0.2 hb).trans (h1.2 hb).symm
  have hop : (0 : BitVec 8) = 1 := by
    have hopcode := congrArg opcodeOf heq
    rwa [renumber, renumber, opcodeOf, opcodeOf, extract_low, extract_low] at hopcode
  exact absurd hop (by decide)

/-- **Faithful listings.** The answer shows all rules and all dynamic rules, from inside of the
buffers, exactly in the normal format, and in the 7.2 format with pointers of 32 bits if the
conversions stay inside. -/
theorem faithful_iff (L : Layout) (is7 : Bool) (env : KEnv) (C : KChain L) (D : KDynTable) :
    Faithful L is7 env C D ↔ Listable L is7 C D := by
  refine ⟨fun h h7 => ?_, faithful_of_listable⟩
  subst h7
  cases L with
  | lp64 => exact absurd h not_faithful_lp64
  | ilp32 =>
    obtain ⟨fuel, words, buf, m, hget, hat, hwords, -⟩ := h _
      ⟨1, fun i _ => by
        simp only [Layout.ptr]
        omega, fun _ => 0⟩ (Nat.lt_succ_self _)
    obtain ⟨b, w, hstatic, -⟩ := static_of_reply hget hat hwords
    exact ⟨rfl, convertsFrom_of_stop (by rw [space_eq]; omega) hstatic⟩

/-- The rule with number 65535 that denies everything. -/
def defaultRule : RuleBuf := fun i =>
  if i = 4 then 0x00010000 else if i = 5 then 0x001fffff else if i = 13 then 0x0000012e else 0

/-- The chain with the default rule only. -/
def defaultChain : KChain .lp64 where
  rules := [⟨defaultRule, by decide, by
    intro q hq
    obtain rfl : q = 0 := Nat.lt_one_iff.1 hq.lt
    decide⟩]
  rules_ne := List.cons_ne_nil _ _
  staticLen := 56
  counted := by decide

/-- With pointers of 64 bits, a tool of the 7.2 format does not see the default rule. -/
theorem not_faithful : ¬ ∀ (L : Layout) (is7 : Bool) (env : KEnv) (C : KChain L) (D : KDynTable),
    Faithful L is7 env C D :=
  fun h => not_faithful_lp64 (h .lp64 true ⟨0, 0, 0⟩ defaultChain ⟨[], 0, rfl⟩)

end Ipfw.GetRules
