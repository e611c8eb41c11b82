import Dummynet.Ipfw.Convert

/-!
# The listing of the rules

`ipfw_ctl` measures the rules and the dynamic rules, allocates a buffer, and `ipfw_getrules` copies
both into it. For a tool of the 7.2 format each rule is copied in part, and converted in place.

## Main definitions

* `Layout`: the sizes of the structures, with pointers of 32 or 64 bits.
* `getrules`, `ipfwGet`: the copy, and the answer to `IP_FW_GET`.
* `Faithful`: an answer that shows all rules and all dynamic rules.

## Main results

* `getStatic_frame`, `getDyn_shows`: what the two loops copy.
-/

namespace Ipfw.GetRules

/-! ### Layouts -/

/-- The layouts of `struct ip_fw` and `struct ip_fw7`, with pointers of 32 or 64 bits. With 32 bits
the counters have no padding before them. -/
inductive Layout
  | ilp32
  | lp64
deriving DecidableEq

namespace Layout

variable (L : Layout)

/-- The words of a pointer. -/
def ptr : ℕ := match L with
  | ilp32 => 1
  | lp64 => 2

/-- The offset of `pcnt`. In `struct ip_fw` the field `id` comes before it, with the padding that
aligns the counters. -/
def counterOfs (is7 : Bool) : ℕ := 2 * L.ptr + 2 + if is7 then 0 else L.ptr

/-- The offset of `timestamp`, behind `pcnt` and `bcnt`. -/
def timestampOfs (is7 : Bool) : ℕ := L.counterOfs is7 + 4

/-- The offset of `cmd`. -/
def cmdOfs (is7 : Bool) : ℕ := L.counterOfs is7 + 5

/-- The field `cmd_len`. -/
def cmdLen (w : RuleBuf) : ℕ := ((w (2 * L.ptr)).extractLsb' 16 16).toNat

/-- `RULESIZE` and `RULESIZE7`, in words. -/
def ruleWords (is7 : Bool) (w : RuleBuf) : ℕ := L.cmdOfs is7 + L.cmdLen w

/-- `sizeof(ipfw_dyn_rule)`, in words. -/
def dynWords : ℕ := 3 * L.ptr + 24

/-- The offset of `expire`, behind the pointers, the counters and the flow id. -/
def expireOfs : ℕ := 3 * L.ptr + 18

theorem ptr_pos : 0 < L.ptr := by cases L <;> decide

theorem ptr_le : L.ptr ≤ 2 := by cases L <;> decide

end Layout

/-! ### The kernel -/

/-- A rule of the chain. Its instructions fill it, as `check_ipfw_struct` has seen. -/
structure KRule (L : Layout) where
  words : RuleBuf
  pos : 0 < L.cmdLen words
  tiles : Tiles words (L.cmdOfs false) (L.cmdLen words) 0

/-- The chain: its rules, the last of which is always there, and the field `static_len`. -/
structure KChain (L : Layout) where
  rules : List (KRule L)
  rules_ne : rules ≠ []
  staticLen : ℕ
  counted : staticLen = 4 * (rules.map fun r => L.ruleWords false r.words).sum

/-- A dynamic rule with the number and the set of the rule to which it points. -/
structure KDyn where
  words : RuleBuf
  rulenum : BitVec 16
  set : BitVec 8

/-- The dynamic rules in the order of the buckets, and `dyn_count`. -/
structure KDynTable where
  entries : List KDyn
  dynCount : ℕ
  counted : dynCount = entries.length

/-- What else the answer depends on: `set_disable`, the time of the boot and the uptime. -/
structure KEnv where
  setDisable : BitVec 32
  bootSeconds : BitVec 32
  timeUptime : BitVec 32

/-- The memory of the answer: its address, no pointer into it is null, and what was in it. -/
structure Alloc (L : Layout) (words : ℕ) where
  base : ℕ
  nonnull : ∀ i < words, ¬ 2 ^ (32 * L.ptr) ∣ base + 4 * i
  init : RuleBuf

/-! ### Static rules -/

/-- The part of a buffer from `bp` on. -/
def window (buf : RuleBuf) (bp : ℕ) : RuleBuf := fun i => buf (bp + i)

/-- The assignments of `convert_rule_to_7` to the fields of the rule. -/
def setHeader7 (L : Layout) (tmp : RuleBuf) : RuleBuf := fun i =>
  if 2 * L.ptr + 2 ≤ i ∧ i < L.cmdOfs true then tmp (i + L.ptr) else tmp i

/-- `convert_rule_to_7` on the words from the rule on, if the copy is inside. -/
def convertTo7 (L : Layout) (fuel : ℕ) (rule : RuleBuf) : Conversion :=
  convertLoop opcodeTo7 rule fuel (L.cmdLen rule) (L.cmdOfs false) (L.cmdOfs true)
    (setHeader7 L rule)

/-- The words that were converted, back in the buffer. -/
def putWindow (buf : RuleBuf) (bp : ℕ) (w : RuleBuf) : RuleBuf := buf.bcopy w 0 bp ruleMaxWords

/-- The disable mask goes into `next_rule`, and the timestamp gets the time of the boot. -/
def finish (L : Layout) (is7 : Bool) (env : KEnv) (buf : RuleBuf) (bp : ℕ) : RuleBuf :=
  let buf := Function.update buf (bp + L.ptr) env.setDisable
  let t := bp + L.timestampOfs is7
  if buf t = 0 then buf else Function.update buf t (buf t + env.bootSeconds)

/-- How the copy of one rule or of all of them goes on. -/
inductive Got
  | next (bp : ℕ) (buf : RuleBuf)
  | stop (bp : ℕ) (buf : RuleBuf)
  | failed
  | outside
  | running

/-- The copy of one rule to `bp`, in a buffer of `space` words. -/
def getRule (L : Layout) (is7 : Bool) (env : KEnv) (space fuel : ℕ) (r : RuleBuf) (bp : ℕ)
    (buf : RuleBuf) : Got :=
  let l := L.ruleWords is7 r
  if is7 then
    if bp + l + 1 ≤ space then
      let buf := buf.bcopy r 0 bp (l + 1)
      -- the conversion copies `RULE_MAXSIZE` bytes from here
      if space < bp + ruleMaxWords then .outside
      else
        match convertTo7 L fuel (window buf bp) with
        | .returned 0 w => .next (bp + l) (finish L true env (putWindow buf bp w) bp)
        | .returned _ _ => .failed
        | .outside => .outside
        | .running => .running
    else .next bp buf
  else if space < bp + l then .stop bp buf
  else .next (bp + l) (finish L false env (buf.bcopy r 0 bp l) bp)

/-- The loop of `ipfw_getrules`. -/
def getStatic (L : Layout) (is7 : Bool) (env : KEnv) (space fuel : ℕ) :
    List (KRule L) → ℕ → RuleBuf → Got
  | [], bp, buf => .stop bp buf
  | r :: rs, bp, buf =>
    match getRule L is7 env space fuel r.words bp buf with
    | .next bp buf => getStatic L is7 env space fuel rs bp buf
    | g => g

/-! ### Dynamic rules -/

/-- The word `j` of a pointer. -/
def ptrWord (a j : ℕ) : BitVec 32 := BitVec.ofNat 32 (a / 2 ^ (32 * j))

/-- The time that is left. -/
def timeLeft (expire uptime : BitVec 32) : BitVec 32 :=
  if (expire - uptime).toInt ≤ 0 then 0 else expire - uptime

/-- The copy of a dynamic rule to `bp`, at the address `a`: the number and the set of the rule are
in the first word of `rule`, and `next` points to the copy itself. -/
def copyDyn (L : Layout) (env : KEnv) (a : ℕ) (e : KDyn) (bp : ℕ) (buf : RuleBuf) : RuleBuf :=
  let buf := buf.bcopy e.words 0 bp L.dynWords
  let buf := Function.update buf (bp + L.ptr)
    ((buf (bp + L.ptr)).extractLsb' 24 8 ++ e.set ++ e.rulenum)
  let buf := RuleBuf.bcopy buf (ptrWord a) 0 bp L.ptr
  let t := bp + L.expireOfs
  Function.update buf t (timeLeft (buf t) env.timeUptime)

/-- The loop of `ipfw_get_dynamic`: the end of the answer, the buffer and `last`. -/
def getDyn (L : Layout) (env : KEnv) (space base : ℕ) :
    List KDyn → ℕ → RuleBuf → Option ℕ → ℕ × RuleBuf × Option ℕ
  | [], bp, buf, last => (bp, buf, last)
  | e :: es, bp, buf, last =>
    if bp + L.dynWords ≤ space then
      getDyn L env space base es (bp + L.dynWords) (copyDyn L env (base + 4 * bp) e bp buf)
        (some bp)
    else getDyn L env space base es bp buf last

/-- `bzero` of the pointer `next` of the last copy. -/
def markLast (L : Layout) (last : Option ℕ) (buf : RuleBuf) : RuleBuf :=
  match last with
  | none => buf
  | some bp => buf.bcopy (fun _ => 0) 0 bp L.ptr

/-! ### The answer -/

/-- An answer of so many words, an answer without rules after a failed conversion, or a conversion
that leaves a buffer or does not end. -/
inductive Answer
  | reply (words : ℕ) (buf : RuleBuf)
  | outside
  | running

/-- `ipfw_getrules`. -/
def getrules (L : Layout) (is7 : Bool) (env : KEnv) (rules : List (KRule L)) (dyns : List KDyn)
    (space fuel : ℕ) (mem : Alloc L space) : Answer :=
  match getStatic L is7 env space fuel rules 0 mem.init with
  | .next bp buf | .stop bp buf =>
    let (bp, buf, last) := getDyn L env space mem.base dyns bp buf none
    .reply bp (markLast L last buf)
  | .failed => .reply 0 mem.init
  | .outside => .outside
  | .running => .running

/-- The words that `ipfw_ctl` allocates: `static_len` and the length of the dynamic rules. -/
def space (L : Layout) (C : KChain L) (D : KDynTable) : ℕ :=
  (C.staticLen + D.dynCount * (4 * L.dynWords)) / 4

/-- `IP_FW_GET`, for a user buffer of so many bytes. The chain is the same when it is measured
again. -/
def ipfwGet (L : Layout) (is7 : Bool) (env : KEnv) (C : KChain L) (D : KDynTable) (valsize : ℕ)
    (fuel : ℕ) (mem : Alloc L (space L C D)) : Option Answer :=
  if valsize ≤ C.staticLen + D.dynCount * (4 * L.dynWords) then none
  else some (getrules L is7 env C.rules D.entries (space L C D) fuel mem)

/-! ### What the answer shows -/

/-- A word of an answer for the word `q` of the instructions of a rule. In the 7.2 format the
opcodes have other numbers. -/
def ShowsWord (L : Layout) (is7 : Bool) (r : RuleBuf) (q : ℕ) (w : BitVec 32) : Prop :=
  if is7 then
    (Boundary (r.cmd (L.cmdOfs false)) (L.cmdLen r) 0 q →
      w = renumber opcodeTo7 (r.cmd (L.cmdOfs false) q)) ∧
    (¬ Boundary (r.cmd (L.cmdOfs false)) (L.cmdLen r) 0 q → w = r.cmd (L.cmdOfs false) q)
  else w = r.cmd (L.cmdOfs false) q

/-- The answer has a rule at `bp`: `act_ofs` and `cmd_len`, the number and the set, the counters and
the instructions. -/
structure Shows (L : Layout) (is7 : Bool) (buf : RuleBuf) (bp : ℕ) (r : RuleBuf) : Prop where
  lens : buf (bp + 2 * L.ptr) = r (2 * L.ptr)
  number : buf (bp + (2 * L.ptr + 1)) = r (2 * L.ptr + 1)
  counters : ∀ i < 4, buf (bp + (L.counterOfs is7 + i)) = r (L.counterOfs false + i)
  cmd : ∀ q < L.cmdLen r, ShowsWord L is7 r q (buf (bp + (L.cmdOfs is7 + q)))

/-- The answer has the rules one behind the other, from `bp` to `e`. The size of a record is the one
that is read from it. -/
def RulesAt (L : Layout) (is7 : Bool) (buf : RuleBuf) : List (KRule L) → ℕ → ℕ → Prop
  | [], bp, e => bp = e
  | r :: rs, bp, e => Shows L is7 buf bp r.words ∧
      RulesAt L is7 buf rs (bp + L.ruleWords is7 (window buf bp)) e

/-- The answer has a dynamic rule at `bp`, and its pointer is null or not. -/
structure ShowsDyn (L : Layout) (env : KEnv) (buf : RuleBuf) (bp : ℕ) (e : KDyn) (null : Prop) :
    Prop where
  next : (∀ j < L.ptr, buf (bp + j) = 0) ↔ null
  rulenum : (buf (bp + L.ptr)).extractLsb' 0 16 = e.rulenum
  set : (buf (bp + L.ptr)).extractLsb' 16 8 = e.set
  expire : buf (bp + L.expireOfs) = timeLeft (e.words L.expireOfs) env.timeUptime
  rest : ∀ i, 2 * L.ptr ≤ i → i < L.dynWords → i ≠ L.expireOfs → buf (bp + i) = e.words i

/-- The answer has all rules and then all dynamic rules, of which only the last one has a null
pointer, and the copy stays inside of the buffers. -/
def Faithful (L : Layout) (is7 : Bool) (env : KEnv) (C : KChain L) (D : KDynTable) : Prop :=
  ∀ (valsize : ℕ) (mem : Alloc L (space L C D)),
    C.staticLen + D.dynCount * (4 * L.dynWords) < valsize →
    ∃ fuel words buf m, ipfwGet L is7 env C D valsize fuel mem = some (.reply words buf) ∧
      RulesAt L is7 buf C.rules 0 m ∧ words = m + L.dynWords * D.entries.length ∧
      ∀ i e, D.entries[i]? = some e →
        ShowsDyn L env buf (m + L.dynWords * i) e (i + 1 = D.entries.length)

/-! ### Copies -/

section copies

variable {L : Layout} {is7 : Bool} {env : KEnv} {buf w : RuleBuf} {bp i n c : ℕ}

theorem bcopy_of_mem (h : bp ≤ i) (h' : i < bp + n) : buf.bcopy w c bp n i = w (c + (i - bp)) :=
  if_pos ⟨h, h'⟩

theorem bcopy_add (h : i < n) : buf.bcopy w c bp n (bp + i) = w (c + i) := by
  rw [bcopy_of_mem (Nat.le_add_right _ _) (Nat.add_lt_add_left h _), Nat.add_sub_cancel_left]

theorem bcopy_of_lt (h : i < bp) : buf.bcopy w c bp n i = buf i := if_neg fun h' => by omega

theorem bcopy_of_ge (h : bp + n ≤ i) : buf.bcopy w c bp n i = buf i := if_neg fun h' => by omega

theorem finish_of_ne (hptr : i ≠ bp + L.ptr) (htime : i ≠ bp + L.timestampOfs is7) :
    finish L is7 env buf bp i = buf i := by
  unfold finish
  split_ifs
  · exact Function.update_of_ne hptr _ _
  · rw [Function.update_of_ne htime, Function.update_of_ne hptr]

theorem finish_of_lt (h : i < bp) : finish L is7 env buf bp i = buf i :=
  finish_of_ne (by omega) (by omega)

/-- A record is shown by its own words. -/
theorem Shows.congr {buf' r : RuleBuf} (h : Shows L is7 buf bp r)
    (hbuf : ∀ i, i < L.ruleWords is7 r → buf' (bp + i) = buf (bp + i)) :
    Shows L is7 buf' bp r := by
  have hptr := L.ptr_pos
  have hle : 2 * L.ptr + 2 ≤ L.counterOfs is7 := Nat.le_add_right _ _
  unfold Layout.ruleWords Layout.cmdOfs at hbuf
  refine ⟨?_, ?_, fun i hi => ?_, fun q hq => ?_⟩
  · rw [hbuf _ (by omega)]
    exact h.lens
  · rw [hbuf _ (by omega)]
    exact h.number
  · rw [hbuf _ (by omega)]
    exact h.counters i hi
  · have hcmd := h.cmd q hq
    unfold Layout.cmdOfs at hcmd ⊢
    rwa [hbuf _ (by omega)]

theorem Shows.cmdLen {r : RuleBuf} (h : Shows L is7 buf bp r) :
    L.ruleWords is7 (window buf bp) = L.ruleWords is7 r := by
  unfold Layout.ruleWords Layout.cmdLen window
  rw [h.lens]

/-- The words that `finish` writes are not shown. -/
theorem Shows.finish {r : RuleBuf} (h : Shows L is7 buf bp r) :
    Shows L is7 (finish L is7 env buf bp) bp r := by
  have hptr := L.ptr_pos
  have hle : 2 * L.ptr + 2 ≤ L.counterOfs is7 := Nat.le_add_right _ _
  have hsame : ∀ i, i ≠ L.ptr → i ≠ L.counterOfs is7 + 4 →
      GetRules.finish L is7 env buf bp (bp + i) = buf (bp + i) := fun i hi hi' =>
    finish_of_ne (by omega) (by unfold Layout.timestampOfs; omega)
  refine ⟨?_, ?_, fun i hi => ?_, fun q hq => ?_⟩
  · rw [hsame _ (by omega) (by omega)]
    exact h.lens
  · rw [hsame _ (by omega) (by omega)]
    exact h.number
  · rw [hsame _ (by omega) (by omega)]
    exact h.counters i hi
  · have hcmd := h.cmd q hq
    unfold Layout.cmdOfs at hcmd ⊢
    rwa [hsame _ (by omega) (by omega)]

/-- A rule that is copied as it is. -/
theorem shows_bcopy {r : RuleBuf} :
    Shows L false (buf.bcopy r 0 bp (L.ruleWords false r)) bp r := by
  have hptr := L.ptr_pos
  have hle : 2 * L.ptr + 2 ≤ L.counterOfs false := Nat.le_add_right _ _
  have hsame : ∀ i, i < L.ruleWords false r →
      buf.bcopy r 0 bp (L.ruleWords false r) (bp + i) = r i := fun i hi => by
    rw [bcopy_add hi, Nat.zero_add]
  unfold Layout.ruleWords Layout.cmdOfs at hsame
  refine ⟨hsame _ (by omega), hsame _ (by omega), fun i hi => hsame _ (by omega), fun q hq => ?_⟩
  exact hsame _ (by unfold Layout.cmdOfs; omega)

end copies

/-! ### The loop over the rules -/

section static

variable {L : Layout} {is7 : Bool} {env : KEnv} {space fuel : ℕ} {rs : List (KRule L)}
  {r buf buf' : RuleBuf} {bp bp' : ℕ}

/-- Before the place of a rule nothing changes. -/
theorem getRule_next (h : getRule L is7 env space fuel r bp buf = .next bp' buf') :
    bp ≤ bp' ∧ ∀ i < bp, buf' i = buf i := by
  unfold getRule at h
  dsimp only at h
  split_ifs at h with h7 hfit hout hfit
  · split at h
    · obtain ⟨rfl, rfl⟩ := Got.next.inj h
      refine ⟨Nat.le_add_right _ _, fun i hi => ?_⟩
      rw [finish_of_lt hi, putWindow, bcopy_of_lt hi, bcopy_of_lt hi]
    · cases h
    · cases h
    · cases h
  · obtain ⟨rfl, rfl⟩ := Got.next.inj h
    exact ⟨le_rfl, fun _ _ => rfl⟩
  · obtain ⟨rfl, rfl⟩ := Got.next.inj h
    exact ⟨Nat.le_add_right _ _, fun i hi => by rw [finish_of_lt hi, bcopy_of_lt hi]⟩

theorem getRule_stop (h : getRule L is7 env space fuel r bp buf = .stop bp' buf') :
    bp' = bp ∧ buf' = buf := by
  unfold getRule at h
  dsimp only at h
  split_ifs at h with h7 hfit hout hfit
  · split at h <;> cases h
  · obtain ⟨rfl, rfl⟩ := Got.stop.inj h
    exact ⟨rfl, rfl⟩

theorem getStatic_ne_next : getStatic L is7 env space fuel rs bp buf ≠ .next bp' buf' := by
  induction rs generalizing bp buf with
  | nil => exact Got.noConfusion
  | cons r rs ih =>
    rw [getStatic]
    cases hr : getRule L is7 env space fuel r.words bp buf with
    | next b w => exact ih
    | stop b w => exact Got.noConfusion
    | failed => exact Got.noConfusion
    | outside => exact Got.noConfusion
    | running => exact Got.noConfusion

/-- Before the place of the first rule nothing changes. -/
theorem getStatic_frame (h : getStatic L is7 env space fuel rs bp buf = .stop bp' buf') :
    bp ≤ bp' ∧ ∀ i < bp, buf' i = buf i := by
  induction rs generalizing bp buf with
  | nil =>
    obtain ⟨rfl, rfl⟩ := Got.stop.inj h
    exact ⟨le_rfl, fun _ _ => rfl⟩
  | cons r rs ih =>
    rw [getStatic] at h
    cases hr : getRule L is7 env space fuel r.words bp buf with
    | next b w =>
      rw [hr] at h
      obtain ⟨hle, hsame⟩ := getRule_next hr
      obtain ⟨hle', hsame'⟩ := ih h
      refine ⟨le_trans hle hle', fun i hi => ?_⟩
      rw [hsame' i (by omega), hsame i hi]
    | stop b w =>
      rw [hr] at h
      obtain ⟨rfl, rfl⟩ := Got.stop.inj h
      obtain ⟨rfl, rfl⟩ := getRule_stop hr
      exact ⟨le_rfl, fun _ _ => rfl⟩
    | failed =>
      rw [hr] at h
      cases h
    | outside =>
      rw [hr] at h
      cases h
    | running =>
      rw [hr] at h
      cases h

end static

/-! ### The loop over the dynamic rules -/

section dyn

variable {L : Layout} {env : KEnv} {space base : ℕ} {es : List KDyn} {e : KDyn}
  {buf buf' : RuleBuf} {bp a : ℕ} {last : Option ℕ}

theorem copyDyn_of_lt {i : ℕ} (h : i < bp) : copyDyn L env a e bp buf i = buf i := by
  unfold copyDyn
  rw [Function.update_of_ne (by omega), bcopy_of_lt h, Function.update_of_ne (by omega),
    bcopy_of_lt h]

/-- The words of a pointer that is not null are not all zero. -/
theorem exists_ptrWord_ne (ha : ¬ 2 ^ (32 * L.ptr) ∣ a) :
    ∃ j < L.ptr, ptrWord a j ≠ 0 := by
  by_contra hall
  push Not at hall
  have hzero : ∀ j, ptrWord a j = 0 → a / 2 ^ (32 * j) % 2 ^ 32 = 0 := by
    intro j hj
    simpa [ptrWord] using congrArg BitVec.toNat hj
  rw [Nat.dvd_iff_mod_eq_zero] at ha
  cases L with
  | ilp32 =>
    have h0 := hzero 0 (hall 0 (by decide))
    simp only [Layout.ptr] at ha
    omega
  | lp64 =>
    have h0 := hzero 0 (hall 0 (by decide))
    have h1 := hzero 1 (hall 1 (by decide))
    simp only [Layout.ptr] at ha
    omega

/-- The copy of a dynamic rule is shown, with a pointer that is not null. -/
theorem shows_copyDyn (ha : ¬ 2 ^ (32 * L.ptr) ∣ a) :
    ShowsDyn L env (copyDyn L env a e bp buf) bp e False := by
  have hptr := L.ptr_pos
  have hsame : ∀ i, i < L.dynWords → buf.bcopy e.words 0 bp L.dynWords (bp + i) = e.words i :=
    fun i hi => by rw [bcopy_add hi, Nat.zero_add]
  have hexp : L.expireOfs = 3 * L.ptr + 18 := rfl
  have hdyn : L.dynWords = 3 * L.ptr + 24 := rfl
  unfold copyDyn
  refine ⟨iff_of_false (fun hall => ?_) id, ?_, ?_, ?_, fun i hi hi' hne => ?_⟩
  · obtain ⟨j, hj, hne⟩ := exists_ptrWord_ne ha
    refine hne ?_
    have hword := hall j hj
    rwa [Function.update_of_ne (by omega), bcopy_add hj, Nat.zero_add] at hword
  · rw [Function.update_of_ne (by omega), bcopy_of_ge (by omega), Function.update_self]
    exact (extract_fields 0 0 e.rulenum _ e.set).2.2.1
  · rw [Function.update_of_ne (by omega), bcopy_of_ge (by omega), Function.update_self]
    exact (extract_fields 0 0 e.rulenum _ e.set).2.2.2.1
  · rw [Function.update_self, bcopy_of_ge (by omega), Function.update_of_ne (by omega),
      hsame _ (by omega)]
  · rw [Function.update_of_ne (by omega), bcopy_of_ge (by omega), Function.update_of_ne (by omega),
      hsame _ hi']

/-- Before the place of the first dynamic rule nothing changes. -/
theorem getDyn_frame {m : ℕ} {last' : Option ℕ}
    (h : getDyn L env space base es bp buf last = (m, buf', last')) :
    (∀ i < bp, buf' i = buf i) ∧ (last' = last ∨ ∃ b, last' = some b ∧ bp ≤ b) := by
  induction es generalizing bp buf last with
  | nil =>
    obtain ⟨-, rfl, rfl⟩ := by simpa [getDyn] using h
    exact ⟨fun _ _ => rfl, .inl rfl⟩
  | cons e es ih =>
    rw [getDyn] at h
    split_ifs at h
    · obtain ⟨hsame, hlast⟩ := ih h
      refine ⟨fun i hi => by rw [hsame i (by omega), copyDyn_of_lt hi], .inr ?_⟩
      rcases hlast with rfl | ⟨b, rfl, hb⟩
      · exact ⟨bp, rfl, le_rfl⟩
      · exact ⟨b, rfl, by omega⟩
    · exact ih h

/-- A dynamic rule is shown by its own words. -/
theorem ShowsDyn.congr {null : Prop} (h : ShowsDyn L env buf bp e null)
    (hbuf : ∀ i, i < L.dynWords → buf' (bp + i) = buf (bp + i)) :
    ShowsDyn L env buf' bp e null := by
  have hptr := L.ptr_pos
  have hexp : L.expireOfs = 3 * L.ptr + 18 := rfl
  have hdyn : L.dynWords = 3 * L.ptr + 24 := rfl
  refine ⟨?_, ?_, ?_, ?_, fun i hi hi' hne => ?_⟩
  · rw [← h.next]
    exact forall₂_congr fun j hj => by rw [hbuf j (by omega)]
  · rw [hbuf _ (by omega)]
    exact h.rulenum
  · rw [hbuf _ (by omega)]
    exact h.set
  · rw [hbuf _ (by omega)]
    exact h.expire
  · rw [hbuf i hi']
    exact h.rest i hi hi' hne

/-- All dynamic rules are copied, each with a pointer that is not null. -/
theorem getDyn_shows (hnonnull : ∀ i < space, ¬ 2 ^ (32 * L.ptr) ∣ base + 4 * i)
    (hfit : bp + L.dynWords * es.length ≤ space) :
    ∃ buf', getDyn L env space base es bp buf last = (bp + L.dynWords * es.length, buf',
        if es = [] then last else some (bp + L.dynWords * (es.length - 1))) ∧
      (∀ i < bp, buf' i = buf i) ∧
      ∀ i e, es[i]? = some e → ShowsDyn L env buf' (bp + L.dynWords * i) e False := by
  induction es generalizing bp buf last with
  | nil => exact ⟨buf, rfl, fun _ _ => rfl, fun i e h => by cases h⟩
  | cons e es ih =>
    have hdyn : L.dynWords = 3 * L.ptr + 24 := rfl
    rw [List.length_cons, Nat.mul_succ] at hfit
    obtain ⟨buf', hget, hsame, hall⟩ := @ih
      (copyDyn L env (base + 4 * bp) e bp buf) (bp + L.dynWords) (some bp) (by omega)
    refine ⟨buf', ?_, fun i hi => ?_, fun i e' hi => ?_⟩
    · rw [getDyn, if_pos (by omega), hget, if_neg (List.cons_ne_nil _ _), List.length_cons,
        Nat.mul_succ, Nat.add_sub_cancel, Nat.add_assoc, Nat.add_comm L.dynWords]
      congr 2
      split_ifs with hes
      · rw [hes]
        rfl
      · obtain ⟨n, hn⟩ := Nat.exists_eq_succ_of_ne_zero (fun h => hes (List.length_eq_zero_iff.1 h))
        rw [hn, Nat.mul_succ, Nat.succ_sub_one]
        congr 1
        omega
    · rw [hsame i (by omega), copyDyn_of_lt hi]
    · cases i with
      | zero =>
        obtain rfl := Option.some.inj hi
        have hshow : ShowsDyn L env (copyDyn L env (base + 4 * bp) e bp buf) bp e False :=
          shows_copyDyn (hnonnull bp (by omega))
        rw [Nat.mul_zero, Nat.add_zero]
        exact hshow.congr fun j hj => hsame _ (by omega)
      | succ i =>
        rw [Nat.mul_succ, Nat.add_comm (L.dynWords * i), ← Nat.add_assoc]
        exact hall i e' hi

/-- At the end the last one has a null pointer. -/
theorem markLast_shows (hnonnull : ∀ i < space, ¬ 2 ^ (32 * L.ptr) ∣ base + 4 * i)
    (hfit : bp + L.dynWords * es.length ≤ space) :
    ∃ buf', getDyn L env space base es bp buf none = (bp + L.dynWords * es.length, buf',
        if es = [] then none else some (bp + L.dynWords * (es.length - 1))) ∧
      (∀ i < bp, markLast L (if es = [] then none else some (bp + L.dynWords * (es.length - 1)))
        buf' i = buf i) ∧
      ∀ i e, es[i]? = some e →
        ShowsDyn L env (markLast L (if es = [] then none
          else some (bp + L.dynWords * (es.length - 1))) buf') (bp + L.dynWords * i) e
          (i + 1 = es.length) := by
  obtain ⟨buf', hget, hsame, hall⟩ := @getDyn_shows L env space base es buf bp none hnonnull hfit
  refine ⟨buf', hget, fun i hi => ?_, fun i e he => ?_⟩
  · split_ifs
    · exact hsame i hi
    · rw [markLast, bcopy_of_lt (by omega)]
      exact hsame i hi
  · obtain ⟨hlt, -⟩ := List.getElem?_eq_some_iff.1 he
    have hdyn : L.dynWords = 3 * L.ptr + 24 := rfl
    have hptr := L.ptr_pos
    have hshow := hall i e he
    rw [if_neg (List.ne_nil_of_length_pos (by omega)), markLast]
    obtain ⟨n, hn⟩ := Nat.exists_eq_succ_of_ne_zero (show es.length ≠ 0 by omega)
    rw [hn, Nat.succ_sub_one]
    rcases Nat.eq_or_lt_of_le (show i ≤ n by omega) with rfl | hin
    · have hexp : L.expireOfs = 3 * L.ptr + 18 := rfl
      have hrest : ∀ j, L.ptr ≤ j → buf'.bcopy (fun _ => 0) 0 (bp + L.dynWords * i) L.ptr
          (bp + L.dynWords * i + j) = buf' (bp + L.dynWords * i + j) := fun j hj =>
        bcopy_of_ge (by omega)
      refine ⟨iff_of_true (fun j hj => bcopy_add hj) rfl, ?_, ?_, ?_, fun j hj hj' hne => ?_⟩
      · rw [hrest _ le_rfl]
        exact hshow.rulenum
      · rw [hrest _ le_rfl]
        exact hshow.set
      · rw [hrest _ (by omega)]
        exact hshow.expire
      · rw [hrest _ (by omega)]
        exact hshow.rest j hj hj' hne
    · have hmul : L.dynWords * (i + 1) ≤ L.dynWords * n := Nat.mul_le_mul_left _ hin
      rw [Nat.mul_succ] at hmul
      have hcongr : ShowsDyn L env (buf'.bcopy (fun _ => 0) 0 (bp + L.dynWords * n) L.ptr)
          (bp + L.dynWords * i) e False := hshow.congr fun j hj => bcopy_of_lt (by omega)
      have hfalse : (i + 1 = n.succ) = False := eq_false (by omega)
      rwa [hfalse]

end dyn

end Ipfw.GetRules
