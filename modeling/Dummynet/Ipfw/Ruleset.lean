import Dummynet.Ipfw.Accepted
import Dummynet.Lib.Search
import Mathlib

/-!
# The ruleset

The changes of the chain of rules in `ip_fw_sockopt.c`: rules are added and deleted, and sets of rules
are moved, swapped, disabled and enabled. A change of the map gives the chain a new generation, and a
new rule takes its id from the generation.

## Main definitions

* `Ruleset`: the chain, with the instructions of the rules and their `x_next` and `next_rule`.
* `ipfwAddRule`, `delEntry`: the operations.
* `Ruleset.Reach`: the reachable rulesets.
-/

namespace Ipfw

/-- `EINVAL`. -/
def einval : ℕ := 22

/-- `ENOSPC`. -/
def enospc : ℕ := 28

/-- `IPFW_DEFAULT_RULE`. -/
def ipfwDefaultRule : ℕ := 65535

/-- `RESVD_SET`. -/
def resvdSet : BitVec 8 := 31#8

/-- `RULESIZE`. -/
def Rule.ruleSize (r : Rule) : ℕ := IpFw.sizeofIpFw + r.cmdLen.toNat * 4 - 4

/-- The chain of rules, the memory of the rules and the sysctl variables. The fields `x_next` and
`next_rule` of a rule, as `O_SKIPTO` uses them, are in `cache`. New rules are at `brk`, and an address
is not used again. -/
structure Ruleset where
  chain : Chain
  defaultRule : RulePtr
  staticLen : BitVec 32
  words : RulePtr → ℕ → BitVec 32
  cache : RulePtr → BitVec 32 × ℕ
  autoincStep : ℤ
  setDisable : BitVec 32
  brk : RulePtr

/-- `vnet_ipfw_init`: the default rule, with the opcode that it is compiled for. -/
def Ruleset.init (defaultToAccept : Bool) : Ruleset where
  chain := {
    rule := fun _ => ⟨0, 1, BitVec.ofNat 16 ipfwDefaultRule, resvdSet, 1⟩
    map := [0]
    id := 1 }
  defaultRule := 0
  staticLen := BitVec.ofNat 32 IpFw.sizeofIpFw
  words := fun _ _ => if defaultToAccept then Opcode.accept.word 1 0 else Opcode.deny.word 1 0
  cache := fun _ => (0, 0)
  autoincStep := 100
  setDisable := 0
  brk := 1

/-- `swap_map`. -/
def Chain.swapMap (C : Chain) (map : List RulePtr) : Chain := { C with map := map, id := C.id + 1 }

/-! ### New rules -/

/-- The step between numbers that are given automatically. -/
def boundStep (step : ℤ) : ℤ := if step < 1 then 1 else if 1000 < step then 1000 else step

/-- The number that a rule without one gets, after the rule with the number `prev`. -/
def autoNumber (prev : BitVec 16) (step : ℤ) : BitVec 16 :=
  if (prev.toNat : ℤ) < ipfwDefaultRule - step then prev + BitVec.ofInt 16 step else prev

/-- `ipfw_add_rule`. The flags are the results of `malloc` for the rule and for the map. -/
def ipfwAddRule (s : Ruleset) (r : IpFw) (ruleOk mapOk : Bool) : ℕ × Ruleset :=
  if ipfwDefaultRule - 1 < r.rulenum.toNat then (einval, s)
  else if !ruleOk then (enospc, s)
  else if !mapOk then (enospc, s)
  else
    let C := s.chain
    let step := boundStep s.autoincStep
    let insertBefore := if r.rulenum ≠ 0 then r.rulenum.toNat + 1 else ipfwDefaultRule
    let i := ipfwFindRule C insertBefore 0
    let num := if r.rulenum = 0 then
        autoNumber (if 0 < i then (C.rule (C.at (i - 1))).rulenum else 0) step
      else r.rulenum
    let f := s.brk
    let rule : Rule := ⟨r.actOfs, r.cmdLen, num, r.set, C.id + 1⟩
    (0, { s with
      chain := { C with rule := Function.update C.rule f rule }.swapMap
        (C.map.take i ++ f :: C.map.drop i)
      staticLen := s.staticLen + BitVec.ofNat 32 r.ruleSize
      words := Function.update s.words f r.cmd
      cache := Function.update s.cache f (0, 0)
      autoincStep := step
      brk := f + 1 })

/-! ### Rules go -/

/-- `keep_rule`. -/
def keepRule (r : Rule) (cmd set : BitVec 8) (n : ℕ) : Bool :=
  decide (r.rulenum.toNat = ipfwDefaultRule) || (cmd == 0 && n == 0 && r.set == resvdSet) ||
    !(cmd == 0 || r.set == set) || !(cmd == 1 || n == 0 || n == r.rulenum.toNat)

/-- The first position of a rule to delete, the one after the last, and the number of rules to
delete. -/
structure Span where
  start : ℕ
  stop : ℕ
  n : ℕ

/-- The search for the rules of a set in the whole map, from the position `i` on. -/
def scanSet (keep : RulePtr → Bool) : ℕ → List RulePtr → Span → Span
  | _, [], p => p
  | i, f :: fs, p =>
    scanSet keep (i + 1) fs
      (if keep f then p else ⟨if p.n = 0 then i else p.start, i + 1, p.n + 1⟩)

/-- The search for the rules with a number, from the first one on. Number 0 stands for all rules. -/
def scanNum (C : Chain) (keep : RulePtr → Bool) (num : ℕ) : List RulePtr → Span → Span
  | [], p => p
  | f :: fs, p =>
    if 0 < num ∧ (C.rule f).rulenum.toNat ≠ num then p
    else scanNum C keep num fs ⟨p.start, p.stop + 1, if keep f then p.n else p.n + 1⟩

/-- The commands 0, 1 and 5 of `del_entry`: the rules of the span that are not kept are deleted. The
flag is the result of `malloc` for the map. -/
def deleteSpan (s : Ruleset) (keep : RulePtr → Bool) (p : Span) (all mapOk : Bool) :
    ℕ × Ruleset :=
  if p.n = 0 then (if all then 0 else einval, s)
  else if !mapOk then (einval, s)
  else
    let C := s.chain
    let span := (C.map.drop p.start).take (p.stop - p.start)
    let reap := span.filter fun f => !keep f
    (0, { s with
      chain := C.swapMap (C.map.take p.start ++ span.filter keep ++ C.map.drop p.stop)
      staticLen := s.staticLen - BitVec.ofNat 32 (reap.map fun f => (C.rule f).ruleSize).sum })

/-- The commands 2 to 4 of `del_entry`: all rules but the last one may get another set. -/
def Chain.mapSets (C : Chain) (g : Rule → BitVec 8) : Chain :=
  { C with rule := fun f =>
      if f ∈ C.map.dropLast then { C.rule f with set := g (C.rule f) } else C.rule f }

/-- `del_entry`. -/
def delEntry (s : Ruleset) (arg : BitVec 32) (mapOk : Bool) : ℕ × Ruleset :=
  let C := s.chain
  let num := (arg.extractLsb' 0 16).toNat
  let cmd := arg.extractLsb' 24 8
  let newSet := arg.extractLsb' 16 8
  let old := BitVec.ofNat 8 num
  if 5 < cmd.toNat ∨ resvdSet.toNat < newSet.toNat then (einval, s)
  else if (cmd = 0 ∨ cmd = 2 ∨ cmd = 5) ∧ ipfwDefaultRule ≤ num then (einval, s)
  else if ¬ (cmd = 0 ∨ cmd = 2 ∨ cmd = 5) ∧ resvdSet.toNat < num then (einval, s)
  else if cmd = 1 then
    deleteSpan s (fun f => keepRule (C.rule f) cmd old num)
      (scanSet (fun f => keepRule (C.rule f) cmd old 0) 0 C.map ⟨0, 0, 0⟩) (arg = 0) mapOk
  else if cmd = 2 then
    (0, { s with chain := C.mapSets fun r => if r.rulenum.toNat = num then newSet else r.set })
  else if cmd = 3 then
    (0, { s with chain := C.mapSets fun r => if r.set.toNat = num then newSet else r.set })
  else if cmd = 4 then
    (0, { s with chain := C.mapSets fun r =>
      if r.set.toNat = num then newSet else if r.set = newSet then old else r.set })
  else
    let keep := fun f => keepRule (C.rule f) cmd newSet num
    let start := ipfwFindRule C num 0
    deleteSpan s keep (scanNum C keep num (C.map.drop start) ⟨start, start, 0⟩) (arg = 0) mapOk

/-- `IP_FW_DEL` with two words: sets are disabled and enabled, but the reserved one. -/
def setEnable (s : Ruleset) (disable enable : BitVec 32) : Ruleset :=
  { s with setDisable :=
      (s.setDisable ||| disable) &&& ~~~enable &&& ~~~(1#32 <<< resvdSet.toNat) }

/-! ### Runs -/

/-- What writers do with the rules: a rule is added, rules are deleted or change their sets, sets are
disabled and enabled, the step of automatic numbers is set. -/
inductive RuleOp
  | add (r : IpFw) (ruleOk mapOk : Bool)
  | del (arg : BitVec 32) (mapOk : Bool)
  | sets (disable enable : BitVec 32)
  | autoinc (step : ℤ)

/-- One operation. -/
def Ruleset.step (s : Ruleset) : RuleOp → Ruleset
  | .add r ruleOk mapOk => (ipfwAddRule s r ruleOk mapOk).2
  | .del arg mapOk => (delEntry s arg mapOk).2
  | .sets disable enable => setEnable s disable enable
  | .autoinc step => { s with autoincStep := step }

/-- The reachable rulesets, where the generation of the chain does not wrap. -/
inductive Ruleset.Reach : Ruleset → Prop
  | init (defaultToAccept : Bool) : Reach (.init defaultToAccept)
  | step {s : Ruleset} (op : RuleOp) : Reach s → s.chain.id ≤ (s.step op).chain.id →
      Reach (s.step op)

/-! ### The order of rules -/

/-- The order of rules, by their numbers and ids. -/
def Rule.Before (r r' : Rule) : Prop :=
  r.rulenum < r'.rulenum ∨ r.rulenum = r'.rulenum ∧ r.id < r'.id

/-- A rule comes before the number `key` and the id `id`. -/
def Rule.Below (r : Rule) (key : ℕ) (id : BitVec 32) : Prop :=
  r.rulenum.toNat < key ∨ r.rulenum.toNat = key ∧ r.id < id

instance (r : Rule) (key : ℕ) (id : BitVec 32) : Decidable (r.Below key id) := by
  unfold Rule.Below
  infer_instance

variable {s t : Ruleset} {C : Chain} {f g : RulePtr} {key : ℕ} {id : BitVec 32} {i j : ℕ}

theorem Rule.Before.trans {r r' r'' : Rule} (h : r.Before r') (h' : r'.Before r'') :
    r.Before r'' := by
  unfold Rule.Before at *
  simp only [BitVec.lt_def, BitVec.toNat_eq] at *
  omega

theorem Rule.before_irrefl {r : Rule} : ¬ r.Before r := by
  rintro (h | ⟨-, h⟩) <;> exact BitVec.lt_irrefl _ h

theorem Rule.Before.below {r r' : Rule} (h : r.Before r') (h' : r'.Below key id) :
    r.Below key id := by
  unfold Rule.Before at h
  unfold Rule.Below at *
  simp only [BitVec.lt_def, BitVec.toNat_eq] at *
  omega

theorem Rule.below_zero {r : Rule} : r.Below key 0 ↔ r.rulenum.toNat < key := by
  unfold Rule.Below
  simp [BitVec.lt_def]

/-- The rules of the chain are in order. -/
def Chain.Sorted (C : Chain) : Prop := C.map.Pairwise fun f g => (C.rule f).Before (C.rule g)

theorem Chain.at_mem (hi : i < C.nRules) : C.at i ∈ C.map := by
  unfold Chain.at
  rw [List.getD_eq_getElem _ _ hi]
  exact List.getElem_mem hi

theorem Chain.Sorted.before (h : C.Sorted) (hij : i < j) (hj : j < C.nRules) :
    (C.rule (C.at i)).Before (C.rule (C.at j)) := by
  unfold Chain.at
  rw [List.getD_eq_getElem _ _ hj, List.getD_eq_getElem _ _ (hij.trans hj)]
  exact List.pairwise_iff_getElem.1 h i j _ hj hij

theorem ipfwFindLoop_eq (n lo hi : ℕ) :
    ipfwFindLoop C key id n lo hi =
      binarySearch (fun i => decide ((C.rule (C.at i)).Below key id)) n lo hi := by
  induction n generalizing lo hi with
  | zero => rfl
  | succ n ih =>
    unfold ipfwFindLoop binarySearch
    by_cases hlt : lo < hi
    · rw [if_pos hlt, if_pos hlt]
      dsimp only
      rw [ih, ih]
      by_cases hb : (C.rule (C.at ((lo + hi) / 2))).Below key id
      · rw [if_pos (decide_eq_true hb)]
        rcases hb with hb | ⟨hb, hid⟩
        · rw [if_pos hb]
        · rw [if_neg (by omega), if_neg (by omega), if_pos hid]
      · rw [if_neg (show ¬ decide ((C.rule (C.at ((lo + hi) / 2))).Below key id) = true from
          fun h => hb (of_decide_eq_true h))]
        rw [Rule.Below, not_or, not_and, not_lt] at hb
        obtain ⟨hle, hid⟩ := hb
        rw [if_neg (by omega)]
        split_ifs with hlt' hid'
        · rfl
        · exact absurd hid' (hid (by omega))
        · rfl
    · rw [if_neg hlt, if_neg hlt]

/-- **`ipfw_find_rule`**: the rules before the position come before the key, and the one there does
not, unless it is the last one. -/
theorem ipfwFindRule_spec (hs : C.Sorted) (key : ℕ) (id : BitVec 32) :
    ipfwFindRule C key id ≤ C.nRules - 1 ∧
      (∀ i < ipfwFindRule C key id, (C.rule (C.at i)).Below key id) ∧
      (ipfwFindRule C key id < C.nRules - 1 →
        ¬ (C.rule (C.at (ipfwFindRule C key id))).Below key id) := by
  unfold ipfwFindRule
  rw [ipfwFindLoop_eq]
  have hmono : ∀ i j, i ≤ j → j < C.nRules - 1 →
      decide ((C.rule (C.at j)).Below key id) = true →
      decide ((C.rule (C.at i)).Below key id) = true := by
    intro i j hij hj hb
    rcases hij.eq_or_lt with rfl | hlt
    · exact hb
    · exact decide_eq_true ((hs.before hlt (by omega)).below (of_decide_eq_true hb))
  obtain ⟨hle, hall, hlast⟩ := binarySearch_spec (Nat.zero_le _) (Nat.sub_le _ 0) hmono (by simp)
  exact ⟨hle, fun i hi => of_decide_eq_true (hall i hi), fun h => of_decide_eq_false (hlast h)⟩

end Ipfw
