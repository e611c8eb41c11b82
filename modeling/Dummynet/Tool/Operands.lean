import Dummynet.Tool.Commands

/-!
# Operands, as they are read and printed

Addresses, ports, flags and ICMP types are read into instructions by the functions `fill_*`, and
printed by the functions `print_*` when rules are listed. No names are resolved.

## Main definitions

* `fillIp`, `fillIp6`, `fillNewports`, `fillFlags`, `fillIcmptypes`: the instruction of a text.
* `printIp`, `printIp6`, `printNewports`, `printFlags`, `printIcmptypes`: the text that is printed.
-/

namespace Dummynet.Tool

/-! ### Printing -/

/-- The decimal digits of a number, at most `f` of them. -/
def digitsOf : ℕ → ℕ → List Char
  | 0, _ => []
  | f + 1, n => (if n < 10 then [] else digitsOf f (n / 10)) ++ [Nat.digitChar (n % 10)]

/-- A number as `%d` prints it. -/
def printNumber (n : ℕ) : List Char := digitsOf (n + 1) n

/-- A number of 16 bits as `0x%04x` prints it. -/
def printHex (x : BitVec 16) : List Char :=
  ['0', 'x', Nat.digitChar (x.toNat / 4096), Nat.digitChar (x.toNat / 256 % 16),
    Nat.digitChar (x.toNat / 16 % 16), Nat.digitChar (x.toNat % 16)]

/-- Items with commas between them. -/
def joinItems : List (List Char) → List Char
  | [] => []
  | [a] => a
  | a :: b :: l => a ++ ',' :: joinItems (b :: l)

/-! ### Ports and types -/

/-- `print_port`, of a type of Ethernet or not. -/
def printPort (ether : Bool) (p : BitVec 16) : List Char :=
  if ether then printHex p else printNumber p.toNat

/-- A port or a range of ports. -/
def printRange (ether : Bool) (p : BitVec 16 × BitVec 16) : List Char :=
  if p.1 ≠ p.2 then printPort ether p.1 ++ '-' :: printPort ether p.2 else printPort ether p.1

/-- `print_newports`. -/
def printNewports (ether : Bool) (l : List (BitVec 16 × BitVec 16)) : List Char :=
  joinItems (l.map (printRange ether))

/-- The types of an instruction, in increasing order. -/
def typesOf (d : BitVec 32) : List ℕ := (List.range 32).filter fun i => d.getLsbD i

/-- `print_icmptypes`. -/
def printIcmptypes (d : BitVec 32) : List Char := joinItems ((typesOf d).map printNumber)

/-! ### Flags -/

/-- `f_tcpflags`. -/
def fTcpflags : List (List Char × BitVec 8) :=
  [(['s', 'y', 'n'], 0x02), (['f', 'i', 'n'], 0x01), (['a', 'c', 'k'], 0x10),
   (['p', 's', 'h'], 0x08), (['r', 's', 't'], 0x04), (['u', 'r', 'g'], 0x20)]

/-- `f_tcpopts`. -/
def fTcpopts : List (List Char × BitVec 8) :=
  [(['m', 's', 's'], 0x01), (['m', 'a', 'x', 's', 'e', 'g'], 0x01),
   (['w', 'i', 'n', 'd', 'o', 'w'], 0x02), (['s', 'a', 'c', 'k'], 0x04), (['t', 's'], 0x08),
   (['t', 'i', 'm', 'e', 's', 't', 'a', 'm', 'p'], 0x08), (['c', 'c'], 0x10)]

/-- `f_ipopts`. -/
def fIpopts : List (List Char × BitVec 8) :=
  [(['s', 's', 'r', 'r'], 0x02), (['l', 's', 'r', 'r'], 0x01), (['r', 'r'], 0x04),
   (['t', 's'], 0x08)]

/-- `f_iptos`. -/
def fIptos : List (List Char × BitVec 8) :=
  [(['l', 'o', 'w', 'd', 'e', 'l', 'a', 'y'], 0x10),
   (['t', 'h', 'r', 'o', 'u', 'g', 'h', 'p', 'u', 't'], 0x08),
   (['r', 'e', 'l', 'i', 'a', 'b', 'i', 'l', 'i', 't', 'y'], 0x04),
   (['m', 'i', 'n', 'c', 'o', 's', 't'], 0x02),
   (['c', 'o', 'n', 'g', 'e', 's', 't', 'i', 'o', 'n'], 0x03),
   (['e', 'c', 'n', 't', 'r', 'a', 'n', 's', 'p', 'o', 'r', 't'], 0x02)]

/-- The flags that can be given. -/
inductive FlagKind
  | tcpflags | tcpopts | ipopts | iptos
deriving DecidableEq

/-- The table of the flags. -/
def FlagKind.table : FlagKind → List (List Char × BitVec 8)
  | .tcpflags => fTcpflags
  | .tcpopts => fTcpopts
  | .ipopts => fIpopts
  | .iptos => fIptos

/-- The loop of `fill_flags`, which ends at the end of the text. -/
def flagsLoop (flags : List (List Char × BitVec 8)) :
    List (List Char) → BitVec 8 × BitVec 8 → Option (BitVec 8 × BitVec 8)
  | [], r => some r
  | p :: ps, (set, clear) =>
    if p = [] ∧ ps = [] then some (set, clear)
    else
      match p with
      | '!' :: q => (flags.lookup q).bind fun x => flagsLoop flags ps (set, clear ||| x)
      | _ => (flags.lookup p).bind fun x => flagsLoop flags ps (set ||| x, clear)

/-- `fill_flags`: the flags that must be set, and the ones that must be clear. -/
def fillFlags (k : FlagKind) (s : List Char) : Option (BitVec 8 × BitVec 8) :=
  flagsLoop k.table (s.splitOn ',') (0, 0)

/-- The flags that are printed. -/
def printedFlags : List (List Char × BitVec 8) → BitVec 8 → BitVec 8 → List (List Char)
  | [], _, _ => []
  | (name, x) :: fs, set, clear =>
    (if set &&& x ≠ 0 then [name] else []) ++ (if clear &&& x ≠ 0 then ['!' :: name] else []) ++
      printedFlags fs (if set &&& x ≠ 0 then set &&& ~~~x else set)
        (if clear &&& x ≠ 0 then clear &&& ~~~x else clear)

/-- `print_flags`: the flags, or nothing but the keyword `setup`. -/
def printFlags (k : FlagKind) (r : BitVec 8 × BitVec 8) : Option (List Char) :=
  if k = .tcpflags ∧ r = (0x02, 0x10) then none
  else some (joinItems (printedFlags k.table r.1 r.2))

/-- The option that is printed, read again. `setup` has no operand. -/
def readFlags (k : FlagKind) : Option (List Char) → Option (BitVec 8 × BitVec 8)
  | none => some (0x02, 0x10)
  | some s => fillFlags k s

/-! ### Addresses -/

/-- `contigmask`. -/
def contigmask {w : ℕ} (m : BitVec w) : Option ℕ :=
  let i := ((List.range w).takeWhile fun k => m.getMsbD k).length
  if ((List.range w).drop (i + 1)).any fun k => m.getMsbD k then none else some i

/-- A mask of `n` bits. -/
def maskOf (w n : ℕ) : BitVec w := BitVec.allOnes w <<< (w - n)

/-- `inet_ntoa`. -/
def inetNtoa (a : BitVec 32) : List Char :=
  printNumber (a.toNat / 2 ^ 24) ++ '.' :: (printNumber (a.toNat / 2 ^ 16 % 256) ++
    '.' :: (printNumber (a.toNat / 2 ^ 8 % 256) ++ '.' :: printNumber (a.toNat % 256)))

/-- The C library: addresses and host names. -/
structure InetEnv where
  aton : List Char → Option (BitVec 32)
  host : List Char → Option (BitVec 32)
  pton6 : List Char → Option (BitVec 128)
  host6 : List Char → Option (BitVec 128)
  ntop6 : BitVec 128 → List Char

/-- An instruction for addresses, by its length and its opcode. -/
inductive IpInsn
  | any
  | me
  | table (n : BitVec 16) (value : Option (BitVec 32))
  | single (a : BitVec 32)
  | list (l : List (BitVec 32 × BitVec 32))
  | set (a : BitVec 32) (size : ℕ) (map : BitVec 256)
deriving DecidableEq

/-- The addresses and masks of an instruction. -/
def IpInsn.addrs : IpInsn → List (BitVec 32)
  | .any | .me | .table _ _ => []
  | .single a | .set a _ _ => [a]
  | .list l => l.flatMap fun p => [p.1, p.2]

/-- The text up to a separator, and the text from there on. -/
def strpbrk (seps s : List Char) : List Char × List Char := s.span fun c => c ∉ seps

/-- The mask of a length. A shift by more than the width is undefined. -/
def lengthMask (z : ℤ) : Option (BitVec 32) :=
  let n := (intOf z).toInt
  if n < 0 ∨ 32 < n then none else some (maskOf 32 n.toNat)

/-- The loop over the numbers of a set of addresses. -/
def setLoop (low high : ℕ) :
    ℕ → Option ℕ → BitVec 256 → List Char → Option (BitVec 256)
  | 0, _, _, _ => none
  | n + 1, prev, map, s =>
    if startsDigit s then
      let (z, e) := scanNumber s
      let a := (intOf z).toInt
      if a < low ∨ high < a then none
      else
        let k := a.toNat - low
        if prev.any fun i => k < i || e.head? = some '-' then none
        else
          let first := prev.getD k
          let map := map ||| setBits 256 (List.range' first (k + 1 - first))
          match e with
          | '-' :: t => setLoop low high n (some k) map t
          | '}' :: _ => some map
          | _ :: t => setLoop low high n none map t
          | [] => none
    else some map

/-- A set of addresses in a network. -/
def fillSet (a m : BitVec 32) (s : List Char) : Option IpInsn :=
  (contigmask m).bind fun i =>
    if i < 24 ∨ 31 < i then none
    else
      let size := 2 ^ (32 - i)
      let low := a.toNat % 256
      (setLoop low (low + size - 1) (s.length + 1) none 0 s).map (.set a size)

/-- A round of the loop over addresses ends it, or goes on with the text behind a comma. -/
inductive IpStep
  | done (i : IpInsn)
  | more (l : List (BitVec 32 × BitVec 32)) (av : List Char)

/-- An address with a mask, and the text from the next separator on. -/
def ipEntry (fNot : Bool) (l : List (BitVec 32 × BitVec 32)) (a m : BitVec 32)
    (next : List Char) : Option IpStep :=
  match next with
  | '{' :: s => if l ≠ [] then none else (fillSet (a &&& m) m s).map .done
  | [] =>
    if m = 0 then if fNot ∧ l = [] then none else some (.done .any)
    else if m = BitVec.allOnes 32 ∧ l = [] then some (.done (.single (a &&& m)))
    else if 63 < 2 * (l.length + 1) + 1 then none
    else some (.done (.list (l ++ [(a &&& m, m)])))
  | _ :: av => if m = 0 then some (.done .any) else some (.more (l ++ [(a &&& m, m)]) av)

/-- One round of the loop of `fill_ip`. -/
def ipRound (E : InetEnv) (fNot : Bool) (l : List (BitVec 32 × BitVec 32)) (av : List Char) :
    Option IpStep :=
  let (name, p) := strpbrk ['/', ':', ',', '{'] av
  (E.aton name <|> E.host name).bind fun a =>
    match p with
    | ':' :: q =>
      let (t, next) := strpbrk [',', '{'] q
      (E.aton t).bind fun m => ipEntry fNot l a m next
    | '/' :: q =>
      let (t, next) := strpbrk [',', '{'] q
      (lengthMask (atoi t)).bind fun m => ipEntry fNot l a m next
    | '{' :: _ => ipEntry fNot l a (maskOf 32 24) p
    | _ => ipEntry fNot l a (BitVec.allOnes 32) p

/-- The loop of `fill_ip`. -/
def ipLoop (E : InetEnv) (fNot : Bool) :
    ℕ → List (BitVec 32 × BitVec 32) → List Char → Option IpInsn
  | 0, _, _ => none
  | n + 1, l, av =>
    match ipRound E fNot l av with
    | none => none
    | some (.done i) => some i
    | some (.more l av) => ipLoop E fNot n l av

/-- `table(`. -/
def tableKey : List Char := ['t', 'a', 'b', 'l', 'e', '(']

/-- A table, and the value that is looked for. -/
def fillTable (s : List Char) : IpInsn :=
  let (n, rest) := strpbrk [','] s
  .table ((strtoul n).1.setWidth 16)
    (match rest with
    | _ :: v => some ((strtoul v).1.setWidth 32)
    | [] => none)

/-- `fill_ip`. -/
def fillIp (E : InetEnv) (fNot : Bool) (s : List Char) : Option IpInsn :=
  if substrcmp s ['a', 'n', 'y'] then some .any
  else if substrcmp s ['m', 'e'] then some .me
  else if tableKey.isPrefixOf s then some (fillTable (s.drop 6))
  else ipLoop E fNot (s.length + 1) [] s

/-- The end of the bits that are set from `i` on. -/
def bitsEnd (map : BitVec 256) (size i : ℕ) : ℕ :=
  i + ((List.range' i (size - i)).takeWhile fun k => map.getLsbD k).length

/-- The loop that prints the numbers of a set. -/
def printBits (map : BitVec 256) (size base : ℕ) : ℕ → ℕ → Char → List Char
  | 0, _, _ => []
  | n + 1, i, comma =>
    if size ≤ i then []
    else if map.getLsbD i then
      let j := bitsEnd map size (i + 1)
      if i + 2 < j then
        comma :: (printNumber (i + base) ++ '-' :: (printNumber (j - 1 + base) ++
          printBits map size base n j ','))
      else comma :: (printNumber (i + base) ++ printBits map size base n (i + 1) ',')
    else printBits map size base n (i + 1) comma

/-- The length of a mask, as it is printed. -/
def printLength {w : ℕ} (m : BitVec w) : List Char :=
  match contigmask m with
  | some i => printNumber i
  | none => ['-', '1']

/-- An address with its mask. -/
def printEntry (p : BitVec 32 × BitVec 32) : List Char :=
  match contigmask p.2 with
  | some 0 => ['a', 'n', 'y']
  | some i => if i < 32 then inetNtoa p.1 ++ '/' :: printNumber i else inetNtoa p.1
  | none => inetNtoa p.1 ++ ':' :: inetNtoa p.2

/-- `print_ip`. -/
def printIp : IpInsn → List Char
  | .any => []
  | .me => ['m', 'e']
  | .table n value => tableKey ++ (printNumber n.toNat ++
    ((value.elim [] fun v => ',' :: printNumber v.toNat) ++ [')']))
  | .single a => inetNtoa a
  | .list l => joinItems (l.map printEntry)
  | .set a size map => inetNtoa a ++ '/' :: (printLength (~~~ (BitVec.ofNat 32 (size - 1))) ++
    (printBits map size (a.toNat % 256) size 0 '{' ++ ['}']))

/-- An instruction for addresses of IPv6. -/
inductive Ip6Insn
  | any
  | me
  | single (a : BitVec 128)
  | list (l : List (BitVec 128 × BitVec 128))
deriving DecidableEq

/-- The addresses of an instruction. -/
def Ip6Insn.addrs : Ip6Insn → List (BitVec 128)
  | .any | .me => []
  | .single a => [a]
  | .list l => l.map Prod.fst

/-- A round of the loop over addresses of IPv6. -/
inductive Ip6Step
  | done (i : Ip6Insn)
  | more (l : List (BitVec 128 × BitVec 128)) (av : List Char)

/-- What follows the loop of `fill_ip6`. The length 1 is the one of `me`. -/
def finishIp6 (l : List (BitVec 128 × BitVec 128)) : Option Ip6Insn :=
  if 63 < 8 * l.length + 1 then none else some (if l = [] then .me else .list l)

/-- The length of a mask, and the text from the next separator on. -/
def ip6Length (p : List Char) : ℤ × List Char :=
  match p with
  | '/' :: q => ((intOf (atoi (strpbrk [','] q).1)).toInt, (strpbrk [','] q).2)
  | _ => (128, p)

/-- An address of IPv6 with the length of its mask. No mask leaves the entry out. -/
def ip6Entry (fNot : Bool) (l : List (BitVec 128 × BitVec 128)) (a : BitVec 128) (len : ℤ)
    (next : List Char) : Option Ip6Step :=
  if 128 < len ∨ len < 0 then none
  else
    let m := maskOf 128 len.toNat
    let l' := if len = 0 then l else l ++ [(a &&& m, m)]
    match next with
    | [] =>
      if len = 0 ∧ fNot ∧ l = [] then none
      else if len = 128 ∧ l = [] then some (.done (.single (a &&& m)))
      else (finishIp6 l').map .done
    | _ :: av => some (.more l' av)

/-- One round of the loop of `fill_ip6`. -/
def ip6Round (E : InetEnv) (fNot : Bool) (l : List (BitVec 128 × BitVec 128)) (av : List Char) :
    Option Ip6Step :=
  let (name, p) := strpbrk ['/', ','] av
  (E.pton6 name <|> E.host6 name).bind fun a =>
    ip6Entry fNot l a (ip6Length p).1 (ip6Length p).2

/-- The loop of `fill_ip6`. -/
def ip6Loop (E : InetEnv) (fNot : Bool) :
    ℕ → List (BitVec 128 × BitVec 128) → List Char → Option Ip6Insn
  | 0, _, _ => none
  | n + 1, l, av =>
    match ip6Round E fNot l av with
    | none => none
    | some (.done i) => some i
    | some (.more l av) => ip6Loop E fNot n l av

/-- `fill_ip6`. -/
def fillIp6 (E : InetEnv) (fNot : Bool) (s : List Char) : Option Ip6Insn :=
  if s = ['a', 'n', 'y'] then some .any
  else if s = ['m', 'e'] then some .me
  else if s = ['m', 'e', '6'] then some .me
  else ip6Loop E fNot (s.length + 1) [] s

/-- An address of IPv6 with its mask. -/
def printEntry6 (E : InetEnv) (p : BitVec 128 × BitVec 128) : List Char :=
  match contigmask p.2 with
  | some 0 => ['a', 'n', 'y']
  | some i => if i < 128 then E.ntop6 p.1 ++ '/' :: printNumber i else E.ntop6 p.1
  | none => E.ntop6 p.1 ++ ':' :: E.ntop6 p.2

/-- `print_ip6`. -/
def printIp6 (E : InetEnv) : Ip6Insn → List Char
  | .any => []
  | .me => ['m', 'e', '6']
  | .single a => E.ntop6 a
  | .list l => joinItems (l.map (printEntry6 E))

end Dummynet.Tool
