import Dummynet.Lib.Buffer
import Dummynet.Tool.Number

/-!
# Listing rules

`ipfw_list` walks over the reply of the kernel: the static rules, of which the default rule is the
last one, and behind them the dynamic entries. Pointers have 64 bits.

## Main definitions

* `forRules`, `forDyn`: the headers of the loops over the reply.
* `parseRange`: a rule number or a range on the command line.
* `ipfwList`: the listing, with `none` for a read outside the reply.
-/

namespace Dummynet.Tool

/-! ### The records -/

/-- `sizeof(struct ip_fw)`. -/
def ruleSizeof : ℕ := 56

/-- The offsets of the fields of a `struct ip_fw`. -/
def cmdLenOfs : ℕ := 18

@[inherit_doc cmdLenOfs]
def rulenumOfs : ℕ := 20

@[inherit_doc cmdLenOfs]
def ruleSetOfs : ℕ := 22

@[inherit_doc cmdLenOfs]
def rulePcntOfs : ℕ := 32

@[inherit_doc cmdLenOfs]
def ruleBcntOfs : ℕ := 40

/-- `sizeof(ipfw_dyn_rule)`. -/
def dynSizeof : ℕ := 120

/-- The offsets of the fields of an `ipfw_dyn_rule`. The kernel puts the number and the set of the
parent rule in the place of the pointer to it. -/
def dynRuleOfs : ℕ := 8

@[inherit_doc dynRuleOfs]
def dynPcntOfs : ℕ := 24

@[inherit_doc dynRuleOfs]
def dynBcntOfs : ℕ := 32

/-- `RULESIZE`, from the number of words of the instructions. -/
def ruleSize (cmdLen : ℕ) : ℕ := ruleSizeof + cmdLen * 4 - 4

/-- `IPFW_DEFAULT_RULE`. -/
def ipfwDefaultRule : ℕ := 65535

/-! ### The loops over the reply -/

section Loops

variable (data : List (BitVec 8))

/-- `NEXT`. -/
def nextRule (r : ℕ) : Option ℕ := do
  let cmdLen ← Buffer.read data (r + cmdLenOfs) 2
  return r + ruleSize cmdLen

/-- The loop that counts the static rules, and leaves `r` at the default rule. -/
def countStatic : ℕ → ℕ → ℕ → Option (ℕ × ℕ)
  | 0, _, _ => none
  | fuel + 1, nstat, r => do
    let rulenum ← Buffer.read data (r + rulenumOfs) 2
    if rulenum < ipfwDefaultRule ∧ r < data.length then
      countStatic fuel (nstat + 1) (← nextRule data r)
    else return (nstat, r)

variable {σ : Type}

/-- `for (n = 0, r = data; n < nstat; n++, r = NEXT(r))`, from some `n` and `r` on. A body that
yields `false` leaves the loop. The last `r` is returned. -/
def forRules (body : ℕ → σ → Option (σ × Bool)) : ℕ → ℕ → σ → Option (ℕ × σ)
  | 0, r, s => some (r, s)
  | n + 1, r, s => do
    let (s, again) ← body r s
    if again then forRules body n (← nextRule data r) s else return (r, s)

/-- `for (n = 0, d = dynrules; n < ndyn; n++, d++)`. -/
def forDyn (body : ℕ → σ → Option (σ × Bool)) : ℕ → ℕ → σ → Option σ
  | 0, _, s => some s
  | n + 1, d, s => do
    let (s, again) ← body d s
    if again then forDyn body n (d + dynSizeof) s else return s

end Loops

/-! ### The command line -/

/-- The digits at the start of a text, if there are any. -/
def scanDecimal : List Char → Option (ℕ × List Char)
  | c :: cs => if digitValue c < 10 then some (scanDigits 10 (c :: cs) 0) else none
  | [] => none

/-- `strtoul` with the base 10: too large numbers become the largest one, and a sign is applied
modulo `2 ^ 64`. -/
def strtoulDecimal (s : List Char) : ℕ × List Char :=
  let (negative, t) := match s.dropWhile Char.isWhitespace with
    | '-' :: t => (true, t)
    | '+' :: t => (false, t)
    | t => (false, t)
  match scanDecimal t with
  | none => (0, s)
  | some (n, e) =>
    if 2 ^ 64 ≤ n then (2 ^ 64 - 1, e)
    else if negative then ((2 ^ 64 - n) % 2 ^ 64, e) else (n, e)

/-- The numbers `rnum` and `last` of an argument, if there is nothing behind them. -/
def parseRange (s : List Char) : Option (ℕ × ℕ) :=
  let (rnum, endptr) := strtoulDecimal s
  let (last, endptr) := match endptr with
    | '-' :: t => strtoulDecimal t
    | t => (rnum, t)
  if endptr = [] then some (rnum, last) else none

/-! ### The listing -/

/-- The options: `-d`, and the set of `set N`, counted from 1; 0 is any set. -/
structure ListOpts where
  doDynamic : Bool
  useSet : ℕ
  showCounters : Bool

/-- `co.use_set && set != co.use_set - 1`. -/
def ListOpts.skips (co : ListOpts) (set : ℕ) : Bool := co.useSet ≠ 0 && set ≠ co.useSet - 1

/-- What is printed for one argument. -/
structure Shown where
  rules : List (List (BitVec 8)) := []
  noRule : Bool := false
  invalid : Bool := false
  dyn : List (List (BitVec 8)) := []
deriving DecidableEq

/-- The widths of the columns. -/
structure Widths where
  pcwidth : ℕ := 0
  bcwidth : ℕ := 0

/-- `pr_u64` for the width of a number. -/
def u64Width (u : ℕ) : ℕ := (Nat.toDigits 10 u).length

/-- Widens the columns for a record. -/
def Widths.widen (w : Widths) (pcnt bcnt : ℕ) : Widths where
  pcwidth := max w.pcwidth (u64Width pcnt)
  bcwidth := max w.bcwidth (u64Width bcnt)

section

variable (co : ListOpts) (data : List (BitVec 8))

/-- The widths for a static rule. -/
def ruleWidths (r : ℕ) (w : Widths) : Option (Widths × Bool) := do
  if co.skips (← Buffer.read data (r + ruleSetOfs) 1) then return (w, true)
  let pcnt ← Buffer.read data (r + rulePcntOfs) 8
  let bcnt ← Buffer.read data (r + ruleBcntOfs) 8
  return (w.widen pcnt bcnt, true)

/-- The widths for a dynamic entry. -/
def dynWidths (d : ℕ) (w : Widths) : Option (Widths × Bool) := do
  if co.useSet ≠ 0 then
    if co.skips (← Buffer.read data (d + dynRuleOfs + 2) 1) then return (w, true)
  let pcnt ← Buffer.read data (d + dynPcntOfs) 8
  let bcnt ← Buffer.read data (d + dynBcntOfs) 8
  return (w.widen pcnt bcnt, true)

/-- `show_ipfw`, which reads the whole rule. -/
def showIpfw (r : ℕ) : Option (List (BitVec 8)) := do
  let cmdLen ← Buffer.read data (r + cmdLenOfs) 2
  Buffer.slice data r (ruleSize cmdLen)

/-- `show_dyn_ipfw`. -/
def showDynIpfw (d : ℕ) : Option (List (BitVec 8)) := Buffer.slice data d dynSizeof

/-- One static rule when all are listed. -/
def listRule (r : ℕ) (out : Shown) : Option (Shown × Bool) := do
  if co.skips (← Buffer.read data (r + ruleSetOfs) 1) then return (out, true)
  return ({ out with rules := out.rules ++ [← showIpfw data r] }, true)

/-- One dynamic entry when all are listed. -/
def listDyn (d : ℕ) (out : Shown) : Option (Shown × Bool) := do
  if co.useSet ≠ 0 then
    if co.skips (← Buffer.read data (d + dynRuleOfs + 2) 1) then return (out, true)
  return ({ out with dyn := out.dyn ++ [← showDynIpfw data d] }, true)

/-- One static rule for a range. -/
def rangeRule (rnum last r : ℕ) (out : Shown) : Option (Shown × Bool) := do
  let rulenum ← Buffer.read data (r + rulenumOfs) 2
  if last < rulenum then return (out, false)
  if co.skips (← Buffer.read data (r + ruleSetOfs) 1) then return (out, true)
  if rnum ≤ rulenum ∧ rulenum ≤ last then
    return ({ out with rules := out.rules ++ [← showIpfw data r] }, true)
  return (out, true)

/-- One dynamic entry for a range. The last test is about the rule at `r`. -/
def rangeDyn (r rnum last d : ℕ) (out : Shown) : Option (Shown × Bool) := do
  let rulenum ← Buffer.read data (d + dynRuleOfs) 2
  if rnum < rulenum then return (out, false)
  if co.useSet ≠ 0 then
    if co.skips (← Buffer.read data (d + dynRuleOfs + 2) 1) then return (out, true)
  let number ← Buffer.read data (r + rulenumOfs) 2
  if rnum ≤ number ∧ number ≤ last then
    return ({ out with dyn := out.dyn ++ [← showDynIpfw data d] }, true)
  return (out, true)

/-- The static rules for the arguments, and the last `r`. -/
def listRanges (nstat : ℕ) : List (List Char) → ℕ → Option (ℕ × List Shown)
  | [], r => some (r, [])
  | arg :: args, r =>
    match parseRange arg with
    | none => do
      let (r, outs) ← listRanges nstat args r
      return (r, { invalid := true } :: outs)
    | some (rnum, last) => do
      let (r, out) ← forRules data (rangeRule co data rnum last) nstat 0 {}
      let (r, outs) ← listRanges nstat args r
      return (r, { out with noRule := out.rules.isEmpty } :: outs)

/-- The dynamic entries for the arguments. -/
def listDynRanges (ndyn dynrules r : ℕ) : List (List Char) → List Shown → Option (List Shown)
  | arg :: args, out :: outs => do
    let out ← match parseRange arg with
      | none => some out
      | some (rnum, last) => forDyn (rangeDyn co data r rnum last) ndyn dynrules out
    return out :: (← listDynRanges ndyn dynrules r args outs)
  | _, _ => some []

/-- The widths of the columns, and `r` behind the loop over the static rules if there is one. -/
def listWidths (nstat ndyn dynrules : ℕ) : Option (ℕ × Widths) := do
  let (r, w) ← (if co.showCounters then forRules data (ruleWidths co data) nstat 0 {}
    else some (dynrules, {}))
  let w ← (if co.doDynamic ∧ ndyn ≠ 0 then forDyn (dynWidths co data) ndyn dynrules w else some w)
  return (r, w)

/-- The listing without arguments. -/
def listAll (nstat ndyn dynrules : ℕ) : Option (List Shown) := do
  let (_, out) ← forRules data (listRule co data) nstat 0 {}
  let out ← (if co.doDynamic ∧ ndyn ≠ 0 then forDyn (listDyn co data) ndyn dynrules out
    else some out)
  return [out]

/-- The listing of the arguments. -/
def listArgs (nstat ndyn dynrules r : ℕ) (args : List (List Char)) : Option (List Shown) := do
  let (r, outs) ← listRanges co data nstat args r
  if co.doDynamic ∧ ndyn ≠ 0 then listDynRanges co data ndyn dynrules r args outs else some outs

/-- `ipfw_list` on a reply: the widths of the columns, and what is shown for each argument, or at
all if there are no arguments. -/
def ipfwList (args : List (List Char)) : Option (Widths × List Shown) := do
  let (nstat, r) ← countStatic data (data.length + 1) 1 0
  let dynrules ← nextRule data r
  let ndyn := (data.length - dynrules) / dynSizeof
  let (r, w) ← listWidths co data nstat ndyn dynrules
  let outs ← (if args = [] then listAll co data nstat ndyn dynrules
    else listArgs co data nstat ndyn dynrules r args)
  return (w, outs)

end

end Dummynet.Tool
