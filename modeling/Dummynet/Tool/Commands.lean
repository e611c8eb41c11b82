import Dummynet.Tool.Number
import Dummynet.Tool.Profile

/-!
# The numbers of the commands

`ipfw_delete`, `ipfw_zero`, `ipfw_sets_handler` and `ipfw_add` read rule numbers, sets, ports and
other small numbers into variables of 8, 16 or 32 bits. The checks are made on what is left of a
number, and three fields are packed in a word.

## Main definitions

* `ipfwDelete`, `ipfwZero`, `ipfwSetsHandler`, `ipfwAdd`: the requests of the commands.
* `Meant`: the integers that a request is meant to hold.
* `Sent.Matches`: the fields of the request are these integers.
* `Meant.Fits`: the integers fit the variables that they pass through.
-/

namespace Dummynet.Tool

/-! ### Numbers -/

/-- `strtol`, for the integer at the start of a text. -/
def longOf (z : ℤ) : BitVec 64 := BitVec.ofInt 64 (max (-2 ^ 63) (min (2 ^ 63 - 1) z))

/-- `strtoul`, for the integer at the start of a text. -/
def unsignedLongOf (z : ℤ) : BitVec 64 :=
  if z.natAbs < 2 ^ 64 then BitVec.ofInt 64 z else BitVec.allOnes 64

/-- `atoi`, for the integer at the start of a text. -/
def intOf (z : ℤ) : BitVec 32 := (longOf z).setWidth 32

/-- `strtonum`. The range is not checked. -/
def strtonum (s : List Char) : Option (BitVec 64) :=
  let (z, e) := scanNumber s
  if z < -2 ^ 63 ∨ 2 ^ 63 ≤ z ∨ s = e ∨ e ≠ [] then none else some (BitVec.ofInt 64 z)

/-- The text starts with a digit. -/
def startsDigit (s : List Char) : Bool := s.head?.any Char.isDigit

/-- `_substrcmp` finds no difference. -/
def substrcmp (s key : List Char) : Bool := s.isPrefixOf key

/-- The integer fits `w` bits. -/
def InWidth (w : ℕ) (z : ℤ) : Prop := 0 ≤ z ∧ z < 2 ^ w

instance (w : ℕ) (z : ℤ) : Decidable (InWidth w z) := inferInstanceAs (Decidable (_ ∧ _))

/-! ### Deletion and counters -/

/-- What a command works on: rules, NAT instances, pipes, or the rules of one set. -/
inductive Scope
  | rules
  | nat
  | pipe
  | set (arg : List Char)

/-- `co.use_set`. -/
def Scope.useSet : Scope → Option (BitVec 32)
  | .set arg => if startsDigit arg then (strtonum arg).map fun n => n.setWidth 32 + 1 else none
  | .rules | .nat | .pipe => some 0

/-- The numbers of a rule, as they are stored. -/
structure AddRequest where
  rulenum : BitVec 16
  set : BitVec 8
  action : Option (BitVec 16)
  ports : List (List (BitVec 16 × BitVec 16))
  icmptypes : List (BitVec 32)
  icmp6types : List (BitVec 224)
deriving DecidableEq

/-- A request to the kernel. -/
inductive Sent
  | del (word : BitVec 32)
  | masks (disable enable : BitVec 32)
  | zero (log : Bool) (word : Option (BitVec 32))
  | natDel (i : BitVec 32)
  | pipeDel (i : BitVec 32)
  | add (r : AddRequest)
deriving DecidableEq

/-- The word of a deletion. -/
def deleteWord (useSet : BitVec 32) (doSet : Bool) (i : BitVec 32) : BitVec 32 :=
  if useSet ≠ 0 then (i &&& 0xffff#32) ||| (5#32 <<< 24) ||| ((useSet - 1) <<< 16)
  else (i &&& 0xffff#32) ||| ((if doSet then 1#32 else 0#32) <<< 24)

/-- One round of the loop of `ipfw_delete`. -/
def deleteOne (co : Scope) (useSet : BitVec 32) (doSet : Bool) (s : List Char) : Sent :=
  match co with
  | .nat => .natDel (intOf (atoi s))
  | .pipe => .pipeDel (intOf (atoi s))
  | .rules | .set _ => .del (deleteWord useSet doSet (intOf (atoi s)))

/-- The arguments of `ipfw_delete` are of a set, and the numbers that it reads. -/
def deleteArgs : List (List Char) → Bool × List (List Char)
  | [] => (false, [])
  | s :: ts =>
    if substrcmp s ['s', 'e', 't'] then (true, ts.takeWhile startsDigit)
    else (false, (s :: ts).takeWhile startsDigit)

/-- `ipfw_delete`. -/
def ipfwDelete (co : Scope) (av : List (List Char)) : Option (List Sent) :=
  match co.useSet with
  | none => none
  | some useSet =>
    let (doSet, args) := deleteArgs av
    if av.isEmpty || (doSet && useSet != 0) then none
    else some (args.map (deleteOne co useSet doSet))

/-- The word of `ipfw_zero`. -/
def zeroWord (useSet : BitVec 32) (arg : BitVec 32) : BitVec 32 :=
  if useSet ≠ 0 then arg ||| ((1#32 <<< 24) ||| ((useSet - 1) <<< 16)) else arg

/-- One round of the loop of `ipfw_zero`. -/
def zeroOne (log : Bool) (useSet : BitVec 32) (s : List Char) : Option Sent :=
  if startsDigit s then
    (strtonum s).map fun n => .zero log (some (zeroWord useSet (n.setWidth 32)))
  else none

/-- `ipfw_zero`. -/
def ipfwZero (co : Scope) (log : Bool) (av : List (List Char)) : Option (List Sent) :=
  match co.useSet with
  | none => none
  | some useSet => if av.isEmpty then some [.zero log none] else av.mapM (zeroOne log useSet)

/-! ### Sets -/

/-- The bits of a list of numbers. -/
def setBits (w : ℕ) (l : List ℕ) : BitVec w := l.foldl (fun d k => d ||| 1#w <<< k) 0

/-- The arguments of `set disable` and `set enable`: the numbers, and what is done to them. -/
def parseEnable : Bool → List (List Char) → Option (List (Bool × ℤ))
  | _, [] => some []
  | which, s :: ts =>
    if startsDigit s then (parseEnable which ts).map ((which, atoi s) :: ·)
    else if substrcmp s ['d', 'i', 's', 'a', 'b', 'l', 'e'] then parseEnable false ts
    else if substrcmp s ['e', 'n', 'a', 'b', 'l', 'e'] then parseEnable true ts
    else none

/-- The numbers that are disabled, or enabled. -/
def ofKind (which : Bool) (l : List (Bool × ℤ)) : List ℤ :=
  (l.filter fun p => p.1 = which).map Prod.snd

/-- A mask of sets. -/
def setMask (l : List ℤ) : BitVec 32 := setBits 32 (l.map fun z => (intOf z).toNat)

/-- `set disable` and `set enable`. -/
def enableSets (which : Bool) (ts : List (List Char)) : Option (List Sent) :=
  (parseEnable which ts).bind fun l =>
    let disable := setMask (ofKind false l)
    let enable := setMask (ofKind true l)
    if (l.all fun p => 0 ≤ (intOf p.2).toInt && (intOf p.2).toInt ≤ 31) && disable &&& enable = 0
    then some [.masks disable enable] else none

/-- The word of `set swap` and `set move`. -/
def setWord (cmd : BitVec 32) (newSet : BitVec 8) (rulenum : BitVec 16) : BitVec 32 :=
  (cmd <<< 24) ||| (newSet.setWidth 32 <<< 16) ||| rulenum.setWidth 32

/-- `set swap`. -/
def swapSets (a b : List Char) : Option (List Sent) :=
  let rulenum : BitVec 16 := (intOf (atoi a)).setWidth 16
  let newSet : BitVec 8 := (intOf (atoi b)).setWidth 8
  if not (startsDigit a) || 31 < rulenum.toNat || not (startsDigit b) || 31 < newSet.toNat then none
  else some [.del (setWord 4 newSet rulenum)]

/-- `set move`, of rules or sets. -/
def moveSets (rule : Bool) (a b : List Char) : Option (List Sent) :=
  let rulenum : BitVec 16 := (intOf (atoi a)).setWidth 16
  let newSet : BitVec 8 := (intOf (atoi b)).setWidth 8
  if not (startsDigit a) || (!rule && 31 < rulenum.toNat) || (rule && rulenum = 65535) ||
      not (startsDigit b) || 31 < newSet.toNat then none
  else some [.del (setWord (if rule then 2 else 3) newSet rulenum)]

/-- What `set` does. -/
inductive SetsCommand
  | showSets
  | swap (a b : List Char)
  | move (rule : Bool) (a b : List Char)
  | enable (which : Bool) (ts : List (List Char))

/-- The arguments of `set move`. -/
def parseMove (rule : Bool) : List (List Char) → Option SetsCommand
  | [a, t, b] => if substrcmp t ['t', 'o'] then some (.move rule a b) else none
  | _ => none

/-- The arguments of `ipfw_sets_handler`. -/
def parseSets : List (List Char) → Option SetsCommand
  | [] => none
  | s :: ts =>
    if substrcmp s ['s', 'h', 'o', 'w'] then some .showSets
    else if substrcmp s ['s', 'w', 'a', 'p'] then
      match ts with
      | a :: b :: _ => some (.swap a b)
      | _ => none
    else if substrcmp s ['m', 'o', 'v', 'e'] then
      match ts with
      | [] => none
      | r :: us =>
        if substrcmp r ['r', 'u', 'l', 'e'] then parseMove true us else parseMove false (r :: us)
    else if substrcmp s ['d', 'i', 's', 'a', 'b', 'l', 'e'] then some (.enable false ts)
    else if substrcmp s ['e', 'n', 'a', 'b', 'l', 'e'] then some (.enable true ts)
    else none

/-- The requests of `ipfw_sets_handler`. -/
def SetsCommand.run : SetsCommand → Option (List Sent)
  | .showSets => some []
  | .swap a b => swapSets a b
  | .move rule a b => moveSets rule a b
  | .enable which ts => enableSets which ts

/-- `ipfw_sets_handler`. -/
def ipfwSetsHandler (av : List (List Char)) : Option (List Sent) :=
  (parseSets av).bind SetsCommand.run

/-! ### Rules -/

/-- The numbers of services, of protocols of Ethernet, and of diverting sockets, and the number of
routing tables. -/
structure AddEnv where
  portNumber : ℕ → List Char → Option (BitVec 16)
  divertPort : List Char → Option (BitVec 16)
  numfibs : BitVec 32

/-- A port: a number, or what a name stands for. -/
inductive PortToken
  | number (z : ℤ)
  | name (p : BitVec 16)
deriving DecidableEq

/-- The end of a name. A backslash escapes the next character. -/
def spanName : List Char → List Char × List Char
  | [] => ([], [])
  | '\\' :: c :: cs => ('\\' :: c :: (spanName cs).1, (spanName cs).2)
  | c :: cs =>
    if c.isAlphanum ∨ c = '\\' then (c :: (spanName cs).1, (spanName cs).2) else ([], c :: cs)

/-- `strtoport`, with the text after the port. -/
def strtoport (lookup : List Char → Option (BitVec 16)) (s : List Char) :
    Option (PortToken × List Char) :=
  if startsDigit s then some (.number (scanNumber s).1, (scanNumber s).2)
  else if (spanName s).1 = [] then none
  else (lookup ((spanName s).1.filter (· ≠ '\\'))).map fun p => (.name p, (spanName s).2)

/-- The loop of `fill_newports`. Each round but the last one ends behind a comma. -/
def portsLoop (lookup : List Char → Option (BitVec 16)) :
    ℕ → List Char → Option (List (PortToken × PortToken))
  | 0, _ => none
  | n + 1, s =>
    match strtoport lookup s with
    | some (a, '-' :: t) =>
      match strtoport lookup t with
      | some (b, []) => some [(a, b)]
      | some (b, ',' :: u) => (portsLoop lookup n u).map ((a, b) :: ·)
      | _ => none
    | some (a, []) => some [(a, a)]
    | some (a, ',' :: t) => (portsLoop lookup n t).map ((a, a) :: ·)
    | _ => none

/-- The ports of an argument. -/
def parsePorts (lookup : List Char → Option (BitVec 16)) (s : List Char) :
    Option (List (PortToken × PortToken)) :=
  portsLoop lookup (s.length + 1) s

/-- What is stored of a port. -/
def PortToken.store : PortToken → BitVec 16
  | .number z => (intOf z).setWidth 16
  | .name p => p

/-- `fill_newports`. -/
def fillNewports (lookup : List Char → Option (BitVec 16)) (s : List Char) :
    Option (List (BitVec 16 × BitVec 16)) :=
  (parsePorts lookup s).bind fun l =>
    if 0x3f < l.length + 1 then none else some (l.map fun p => (p.1.store, p.2.store))

/-- The loop over a list of ICMP types. Each round ends behind a type. -/
def typesLoop : ℕ → List Char → Option (List ℤ)
  | _, [] => some []
  | 0, _ => none
  | n + 1, s =>
    let (z, e) := scanNumber (if s.head? = some ',' then s.tail else s)
    if e = [] ∨ e.head? = some ',' then (typesLoop n e).map (z :: ·) else none

/-- The ICMP types of an argument. -/
def parseTypes (s : List Char) : Option (List ℤ) := typesLoop (s.length + 1) s

/-- A type, in a variable of 8 bits. -/
def typeOf (z : ℤ) : ℕ := ((unsignedLongOf z).setWidth 8).toNat

/-- A list of types up to `max`. The words of the instruction are one of `w` bits, the first word
the lowest. -/
def fillTypes (w max : ℕ) (s : List Char) : Option (BitVec w) :=
  (parseTypes s).bind fun l =>
    if l.all fun z => typeOf z ≤ max then some (setBits w (l.map typeOf)) else none

/-- `fill_icmptypes`. -/
def fillIcmptypes : List Char → Option (BitVec 32) := fillTypes 32 31

/-- `fill_icmp6types`. -/
def fillIcmp6types : List Char → Option (BitVec 224) := fillTypes 224 201

/-- `icmpcodes`. -/
def icmpcodes : List (List Char × BitVec 32) :=
  [(['n', 'e', 't'], 0),
   (['h', 'o', 's', 't'], 1),
   (['p', 'r', 'o', 't', 'o', 'c', 'o', 'l'], 2),
   (['p', 'o', 'r', 't'], 3),
   (['n', 'e', 'e', 'd', 'f', 'r', 'a', 'g'], 4),
   (['s', 'r', 'c', 'f', 'a', 'i', 'l'], 5),
   (['n', 'e', 't', '-', 'u', 'n', 'k', 'n', 'o', 'w', 'n'], 6),
   (['h', 'o', 's', 't', '-', 'u', 'n', 'k', 'n', 'o', 'w', 'n'], 7),
   (['i', 's', 'o', 'l', 'a', 't', 'e', 'd'], 8),
   (['n', 'e', 't', '-', 'p', 'r', 'o', 'h', 'i', 'b'], 9),
   (['h', 'o', 's', 't', '-', 'p', 'r', 'o', 'h', 'i', 'b'], 10),
   (['t', 'o', 's', 'n', 'e', 't'], 11),
   (['t', 'o', 's', 'h', 'o', 's', 't'], 12),
   (['f', 'i', 'l', 't', 'e', 'r', '-', 'p', 'r', 'o', 'h', 'i', 'b'], 13),
   (['h', 'o', 's', 't', '-', 'p', 'r', 'e', 'c', 'e', 'd', 'e', 'n', 'c', 'e'], 14),
   (['p', 'r', 'e', 'c', 'e', 'd', 'e', 'n', 'c', 'e', '-', 'c', 'u', 't', 'o', 'f', 'f'], 15)]

/-- `icmp6codes`. -/
def icmp6codes : List (List Char × BitVec 32) :=
  [(['n', 'o', '-', 'r', 'o', 'u', 't', 'e'], 0),
   (['a', 'd', 'm', 'i', 'n', '-', 'p', 'r', 'o', 'h', 'i', 'b'], 1),
   (['a', 'd', 'd', 'r', 'e', 's', 's'], 3),
   (['p', 'o', 'r', 't'], 4)]

/-- The code of an unreachable message. -/
def fillCode (codes : List (List Char × BitVec 32)) (s : List Char) : Option (BitVec 16) :=
  let (n, e) := strtoul s
  let val : BitVec 32 := n.setWidth 32
  let val := if s = e ∨ e ≠ [] ∨ 0x100 ≤ val.toInt then (codes.lookup s).getD (-1) else val
  if val.toInt < 0 then none else some (val.setWidth 16)

/-- `fill_reject_code`. -/
def fillRejectCode : List Char → Option (BitVec 16) := fillCode icmpcodes

/-- `fill_unreach6_code`. -/
def fillUnreach6Code : List Char → Option (BitVec 16) := fillCode icmp6codes

/-- The number of an action: none, the argument of `skipto`, `pipe`, `divert` and others, a routing
table, the code of a message, or the port of `forward`. -/
inductive ActionArg
  | none
  | arg (divert : Bool) (s : List Char)
  | setfib (s : List Char)
  | unreach (s : List Char)
  | unreach6 (s : List Char)
  | forward (s : List Char)

/-- The argument of an action, at the label `chkarg`. -/
def chkarg (E : AddEnv) (divert : Bool) (s : List Char) : Option (BitVec 16) :=
  if startsDigit s then
    let arg1 : BitVec 16 := (unsignedLongOf (atoi s)).setWidth 16
    if arg1 = 0 ∨ 65535 ≤ arg1.toNat then none else some arg1
  else if substrcmp s ['t', 'a', 'b', 'l', 'e', 'a', 'r', 'g'] then some 65535
  else if divert then E.divertPort s else none

/-- The number of an action, as it is stored. -/
def fillAction (E : AddEnv) : ActionArg → Option (Option (BitVec 16))
  | .none => some none
  | .arg divert s => (chkarg E divert s).map some
  | .setfib s =>
    let arg1 : BitVec 16 := (unsignedLongOf (atoi s)).setWidth 16
    if E.numfibs.toInt ≤ arg1.toNat then none else some (some arg1)
  | .unreach s => (fillRejectCode s).map some
  | .unreach6 s => (fillUnreach6Code s).map some
  | .forward s => (strtoport (E.portNumber 0) s).map fun p => some p.1.store

/-- The operands of a rule with numbers: of the rule itself, of its action, the lists of ports with
their protocols, and the lists of types. -/
structure AddCommand where
  rulenum : Option (List Char) := none
  set : Option (List Char) := none
  action : ActionArg := .none
  ports : List (ℕ × List Char) := []
  icmptypes : List (List Char) := []
  icmp6types : List (List Char) := []

/-- The number of a rule. -/
def readRulenum : Option (List Char) → Option (BitVec 16)
  | none => some 0
  | some s => if startsDigit s then some ((intOf (atoi s)).setWidth 16) else none

/-- The set of a rule. -/
def readSet : Option (List Char) → Option (BitVec 8)
  | none => some 0
  | some s =>
    let set : BitVec 32 := (unsignedLongOf (atoi s)).setWidth 32
    if set.toInt < 0 ∨ 31 < set.toInt then none else some (set.setWidth 8)

/-- `ipfw_add`, as far as it reads numbers. -/
def ipfwAdd (E : AddEnv) (c : AddCommand) : Option AddRequest := do
  let rulenum ← readRulenum c.rulenum
  let set ← readSet c.set
  let action ← fillAction E c.action
  let ports ← c.ports.mapM fun p => fillNewports (E.portNumber p.1) p.2
  let icmptypes ← c.icmptypes.mapM fillIcmptypes
  let icmp6types ← c.icmp6types.mapM fillIcmp6types
  return ⟨rulenum, set, action, ports, icmptypes, icmp6types⟩

/-! ### What the commands mean -/

/-- A command. -/
inductive Command
  | delete (co : Scope) (av : List (List Char))
  | zero (co : Scope) (log : Bool) (av : List (List Char))
  | sets (av : List (List Char))
  | add (c : AddCommand)

/-- The requests of a command, unless it is rejected. -/
def Command.run (E : AddEnv) : Command → Option (List Sent)
  | .delete co av => ipfwDelete co av
  | .zero co log av => ipfwZero co log av
  | .sets av => ipfwSetsHandler av
  | .add c => (ipfwAdd E c).map fun r => [.add r]

/-- The integers of a rule. -/
structure RuleNumbers where
  rulenum : ℤ
  set : ℤ
  action : Option ℤ
  ports : List (List (PortToken × PortToken))
  icmptypes : List (List ℤ)
  icmp6types : List (List ℤ)
deriving DecidableEq

/-- The integers that a request is meant to hold. -/
inductive Meant
  | word (cmd set num : ℤ)
  | masks (disable enable : List ℤ)
  | rule (d : RuleNumbers)
  | other
deriving DecidableEq

/-- A deletion of the rules with a number, in a set or not, or of a set. -/
def deleteMeant (co : Scope) (doSet : Bool) (s : List Char) : Meant :=
  match co with
  | .rules => .word (if doSet then 1 else 0) 0 (atoi s)
  | .set arg => .word 5 (scanNumber arg).1 (atoi s)
  | .nat | .pipe => .other

/-- The counters of the rules with a number, in a set or not. -/
def zeroMeant (co : Scope) (s : List Char) : Meant :=
  match co with
  | .set arg => .word 1 (scanNumber arg).1 (scanNumber s).1
  | .rules | .nat | .pipe => .word 0 0 (scanNumber s).1

/-- What is meant by `ipfw_sets_handler`. -/
def SetsCommand.meant : SetsCommand → List Meant
  | .showSets => []
  | .swap a b => [.word 4 (atoi b) (atoi a)]
  | .move rule a b => [.word (if rule then 2 else 3) (atoi b) (atoi a)]
  | .enable which ts =>
    let l := (parseEnable which ts).getD []
    [.masks (ofKind false l) (ofKind true l)]

/-- The integer of an action, unless it is a name. -/
def ActionArg.meant (E : AddEnv) : ActionArg → Option ℤ
  | .none => Option.none
  | .arg _ s => if startsDigit s then some (atoi s) else Option.none
  | .setfib s => some (atoi s)
  | .unreach s | .unreach6 s =>
    if s ≠ [] ∧ (scanNumber s).2 = [] then some (scanNumber s).1 else Option.none
  | .forward s =>
    match strtoport (E.portNumber 0) s with
    | some (.number z, _) => some z
    | _ => Option.none

/-- What is meant by `ipfw_add`. -/
def AddCommand.meant (E : AddEnv) (c : AddCommand) : RuleNumbers where
  rulenum := (c.rulenum.map atoi).getD 0
  set := (c.set.map atoi).getD 0
  action := c.action.meant E
  ports := c.ports.map fun p => (parsePorts (E.portNumber p.1) p.2).getD []
  icmptypes := c.icmptypes.map fun s => (parseTypes s).getD []
  icmp6types := c.icmp6types.map fun s => (parseTypes s).getD []

/-- What is meant by a command: a list of integers for each of its requests. -/
def Command.meant (E : AddEnv) : Command → List Meant
  | .delete co av => (deleteArgs av).2.map (deleteMeant co (deleteArgs av).1)
  | .zero co _ av => if av.isEmpty then [.other] else av.map (zeroMeant co)
  | .sets av => ((parseSets av).map SetsCommand.meant).getD []
  | .add c => [.rule (c.meant E)]

/-- The fields of a word, as the kernel reads them. -/
def WordMatches (x : BitVec 32) (cmd set num : ℤ) : Prop :=
  ((x.extractLsb' 24 8).toNat : ℤ) = cmd ∧ ((x.extractLsb' 16 8).toNat : ℤ) = set ∧
    ((x.extractLsb' 0 16).toNat : ℤ) = num

/-- The bits of a word are the integers. -/
def BitsMatch {w : ℕ} (x : BitVec w) (l : List ℤ) : Prop :=
  ∀ z : ℤ, z ∈ l ↔ 0 ≤ z ∧ x.getLsbD z.toNat

/-- A field of 16 bits is the port. -/
def PortToken.Matches (x : BitVec 16) : PortToken → Prop
  | .number z => (x.toNat : ℤ) = z
  | .name p => x = p

/-- The numbers of a rule are the integers. -/
structure AddRequest.Matches (r : AddRequest) (d : RuleNumbers) : Prop where
  rulenum : (r.rulenum.toNat : ℤ) = d.rulenum
  set : (r.set.toNat : ℤ) = d.set
  action : ∀ z ∈ d.action, ∃ a ∈ r.action, (a.toNat : ℤ) = z
  ports : List.Forall₂ (List.Forall₂ fun x p => p.1.Matches x.1 ∧ p.2.Matches x.2) r.ports d.ports
  icmptypes : List.Forall₂ BitsMatch r.icmptypes d.icmptypes
  icmp6types : List.Forall₂ BitsMatch r.icmp6types d.icmp6types

/-- The fields of a request are the integers, and there are no others. -/
def Sent.Matches : Sent → Meant → Prop
  | .del x, .word cmd set num => WordMatches x cmd set num
  | .zero _ (some x), .word cmd set num => WordMatches x cmd set num
  | .masks disable enable, .masks d e => BitsMatch disable d ∧ BitsMatch enable e
  | .add r, .rule d => r.Matches d
  | .zero _ none, .other => True
  | .natDel _, .other => True
  | .pipeDel _, .other => True
  | _, _ => False

/-- A port fits its field. -/
def PortToken.Fits : PortToken → Prop
  | .number z => InWidth 16 z
  | .name _ => True

/-- The integers of a rule fit. -/
structure RuleNumbers.Fits (d : RuleNumbers) : Prop where
  rulenum : InWidth 16 d.rulenum
  set : InWidth 8 d.set
  action : ∀ z ∈ d.action, InWidth 16 z
  ports : ∀ l ∈ d.ports, ∀ p ∈ l, p.1.Fits ∧ p.2.Fits
  icmptypes : ∀ l ∈ d.icmptypes, ∀ z ∈ l, 0 ≤ z ∧ z < 32
  icmp6types : ∀ l ∈ d.icmp6types, ∀ z ∈ l, 0 ≤ z ∧ z < 224

/-- The integers of a request fit the variables. -/
def Meant.Fits : Meant → Prop
  | .word _ set num => InWidth 8 set ∧ InWidth 16 num
  | .masks disable enable => (∀ z ∈ disable, 0 ≤ z ∧ z < 32) ∧ ∀ z ∈ enable, 0 ≤ z ∧ z < 32
  | .rule d => d.Fits
  | .other => True

end Dummynet.Tool
