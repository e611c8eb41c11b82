import Dummynet.Lib.Buffer

/-!
# The arguments of a command

`ipfw_main` builds its argument array in one block of memory, with the pointers in front of the
strings. A single argument is split into words, where white space behind a comma is removed in
place; of several arguments the ones that end with a comma are joined with the next one.

## Main definitions

* `AvBlock`: the block.
* `squeezeLoop`, `splitLoop`: the loops for a single argument.
* `joinLoop`: the loop for several arguments.
* `ipfwMainArgs`: the argument array, with `none` for a write outside the block.
-/

namespace Dummynet.Tool

/-! ### The block -/

/-- The block of the array: the number of pointers that it has room for, the strings that `av[1]`
and the next ones point to, and the bytes behind the pointers. -/
structure AvBlock where
  slots : ℕ
  ptrs : List ℕ
  strs : List (BitVec 8)

namespace AvBlock

/-- The index of the next pointer. -/
def ac (b : AvBlock) : ℕ := b.ptrs.length + 1

/-- `av[ac++] = av_p`. -/
def push (b : AvBlock) (p : ℕ) : Option AvBlock :=
  if b.ac < b.slots then some { b with ptrs := b.ptrs ++ [p] } else none

/-- A write of bytes. -/
def write (b : AvBlock) (p : ℕ) (s : List (BitVec 8)) : Option AvBlock :=
  (Buffer.write b.strs p s).map fun strs => { b with strs := strs }

/-- The string at an address. -/
def string (b : AvBlock) (p : ℕ) : List (BitVec 8) := (b.strs.drop p).takeWhile (· ≠ 0)

/-- The array, with the name of the program; `av[ac]` is the null pointer. -/
def argv (b : AvBlock) (prog : List (BitVec 8)) : Option (List (List (BitVec 8))) :=
  if b.ac < b.slots then some (prog :: b.ptrs.map b.string) else none

end AvBlock

/-! ### A single argument -/

/-- `','`. -/
def comma : BitVec 8 := 44

/-- `'#'`. -/
def hashMark : BitVec 8 := 35

/-- `WHITESP`. -/
def whitesp : List (BitVec 8) := [32, 9, 12, 11, 10, 13]

/-- `strchr(s, c) != NULL`, where the end of `s` counts. -/
def strchr (s : List (BitVec 8)) (c : BitVec 8) : Bool := s.contains c || c = 0

/-- The loop that removes comments and white space in place, for the last `n` bytes. -/
def squeezeLoop : ℕ → List (BitVec 8) → ℕ → ℕ → Bool → List (BitVec 8) × ℕ × Bool
  | 0, arg, _, j, copy => (arg, j, copy)
  | n + 1, arg, i, j, copy =>
    let c := arg.getD i 0
    if c = hashMark then (arg, j, copy)
    else if copy then
      squeezeLoop n (arg.set j c) (i + 1) (j + 1) (!strchr (comma :: whitesp) c)
    else if !strchr whitesp c then squeezeLoop n (arg.set j c) (i + 1) (j + 1) true
    else squeezeLoop n arg (i + 1) j false

/-- The loop that copies the words, for the last `n` bytes. -/
def splitLoop (arg : List (BitVec 8)) (l : ℕ) : ℕ → ℕ → ℕ → ℕ → AvBlock → Option AvBlock
  | 0, _, _, _, b => some b
  | n + 1, i, j, avp, b =>
    if strchr whitesp (arg.getD i 0) ∨ i = l - 1 then do
      let i := if i = l - 1 then i + 1 else i
      let b ← b.write avp ((arg.drop j).take (i - j))
      let b ← b.push avp
      let avp := avp + (i - j)
      let b ← b.write avp [0]
      splitLoop arg l n (i + 1) (i + 1) (avp + 1) b
    else splitLoop arg l n (i + 1) j avp b

/-- The array for a single argument; the inner `none` is a return with an error. -/
def ipfwSplit (prog arg : List (BitVec 8)) : Option (Option (List (List (BitVec 8)))) :=
  let (arg, j, copy) := squeezeLoop arg.length (arg ++ [0]) 0 0 false
  let l := if !copy && 0 < j then j - 1 else j
  let arg := arg.set l 0
  if l = 0 then some none
  else do
    let ac := 1 + (arg.take l).countP (strchr whitesp) + 1
    let b ← splitLoop arg l l 0 0 0 ⟨ac + 1, [], List.replicate (l + 1) 0⟩
    let argv ← b.argv prog
    return some argv

/-! ### Several arguments -/

/-- `strcat`. -/
def AvBlock.strcat (b : AvBlock) (p : ℕ) (s : List (BitVec 8)) : Option AvBlock :=
  b.write (p + (b.string p).length) (s ++ [0])

/-- The loop that copies joined arguments. -/
def catLoop : List (List (BitVec 8)) → ℕ → AvBlock → Option (ℕ × AvBlock)
  | [], avp, b => some (avp, b)
  | s :: ss, avp, b => do
    let b ← b.strcat avp s
    catLoop ss (avp + s.length) b

/-- The loop over the arguments, for the last `n` ones. -/
def joinLoop (oldav : List (List (BitVec 8))) : ℕ → ℕ → ℕ → ℕ → AvBlock → Option AvBlock
  | 0, _, _, _, b => some b
  | n + 1, i, first, avp, b =>
    if (oldav.getD i []).getLast? ≠ some comma ∨ i = oldav.length - 1 then do
      let b ← b.push avp
      let (avp, b) ← catLoop ((oldav.drop first).take (i + 1 - first)) avp b
      let b ← b.write avp [0]
      joinLoop oldav n (i + 1) (i + 1) (avp + 1) b
    else joinLoop oldav n (i + 1) first avp b

/-- The array for several arguments. -/
def ipfwJoin (oldav : List (List (BitVec 8))) : Option (Option (List (List (BitVec 8)))) := do
  let l := (oldav.map List.length).sum
  let b ← joinLoop oldav (oldav.length - 1) 1 1 0
    ⟨oldav.length + 1, [], List.replicate (l + oldav.length) 0⟩
  let argv ← b.argv (oldav.getD 0 [])
  return some argv

/-- The argument array that `ipfw_main` builds. -/
def ipfwMainArgs : List (List (BitVec 8)) → Option (Option (List (List (BitVec 8))))
  | [prog, arg] => ipfwSplit prog arg
  | prog :: arg :: args => ipfwJoin (prog :: arg :: args)
  | _ => some none

end Dummynet.Tool
