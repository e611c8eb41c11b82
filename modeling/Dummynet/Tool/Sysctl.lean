import Dummynet.Lib.Buffer

/-!
# Emulated sysctl variables

The module keeps a table of its variables. `sysctlbyname` asks for a copy of the whole table and
looks for the name in it, or sends a message with a new value. The numbers of an entry stand in a
`struct sysctlhead`, behind it the data, and behind the data the name. Pointers have 64 bits. An
access outside a buffer has no result, and an allocation fails only for a negative length.

## Main definitions

* `SysctlEntry`, `Gst`: the table, with `sysctlPushback`.
* `kesysctlEmuGet`, `kesysctlEmuSet`: the requests in the module.
* `walk`, `sysctlGet`, `sysctlSet`: `sysctlbyname`.
-/

namespace Dummynet.Tool

/-! ### The table -/

/-- A C string, without the byte 0 behind it. -/
abbrev CString : Type := {s : List (BitVec 8) // 0 ∉ s}

/-- `struct sysctlentry`, with the variable itself. -/
structure SysctlEntry where
  name : CString
  flags : BitVec 32
  data : List (BitVec 8)

/-- `sizeof(struct dn_id)`. -/
def dnIdSizeof : ℕ := 8

/-- `sizeof(struct sysctlhead)`. -/
def sysctlheadSizeof : ℕ := 16

/-- `(n + 3) & ~3`. -/
def roundUp4 (n : ℕ) : ℕ := (n + 3) / 4 * 4

namespace SysctlEntry

variable (e : SysctlEntry)

def namelen : ℕ := e.name.1.length + 1

def datalen : ℕ := e.data.length

def blocklen : ℕ := roundUp4 (sysctlheadSizeof + e.namelen + e.datalen)

end SysctlEntry

/-- `GST_HARD_LIMIT`. -/
def gstHardLimit : ℕ := 100

/-- `totalsize` of the table. -/
def totalsize (es : List SysctlEntry) : ℕ := (es.map (·.blocklen)).sum

/-- The length of a reply with the table. -/
def sizeneeded (es : List SysctlEntry) : ℕ := dnIdSizeof + totalsize es + sysctlheadSizeof

/-- The table of the variables. Its lengths are of type `int`. -/
structure Gst where
  entries : List SysctlEntry
  count_le : entries.length ≤ gstHardLimit
  size_lt : sizeneeded entries < 2 ^ 31

/-- `sysctl_pushback`. There is no result if the lengths are too large for an `int`. -/
def sysctlPushback (T : Gst) (e : SysctlEntry) : Option Gst :=
  if hfull : gstHardLimit ≤ T.entries.length then some T
  else if hsize : sizeneeded (T.entries ++ [e]) < 2 ^ 31 then
    some ⟨T.entries ++ [e], by rw [List.length_append, List.length_singleton]; omega, hsize⟩
  else none

/-! ### Strings in a buffer -/

/-- `strcmp(name, p) == 0` for a string in the buffer. -/
def strcmpEq : List (BitVec 8) → List (BitVec 8) → ℕ → Option Bool
  | [], buf, p => do return (← Buffer.read buf p 1) = 0
  | c :: name, buf, p => do
    let b ← Buffer.read buf p 1
    if b = c.toNat then strcmpEq name buf (p + 1) else return false

/-! ### The module -/

/-- `CTLFLAG_RD`. -/
def ctlflagRd : BitVec 32 := 1

/-- `DN_API_VERSION`. -/
def dnApiVersion : ℕ := 12500000

/-- `DN_SYSCTL_GET`. -/
def dnSysctlGet : ℕ := 135

/-- `DN_SYSCTL_SET`. -/
def dnSysctlSet : ℕ := 136

/-- The assignments to the fields of a `struct sysctlhead`. -/
def writeHead (buf : List (BitVec 8)) (entry blocklen namelen flags datalen : ℕ) :
    Option (List (BitVec 8)) := do
  let buf ← Buffer.write buf entry (Buffer.bytesOf 4 blocklen)
  let buf ← Buffer.write buf (entry + 4) (Buffer.bytesOf 4 namelen)
  let buf ← Buffer.write buf (entry + 8) (Buffer.bytesOf 4 flags)
  Buffer.write buf (entry + 12) (Buffer.bytesOf 4 datalen)

/-- The loop of `kesysctl_emu_get`. -/
def emuGetLoop : List SysctlEntry → List (BitVec 8) → ℕ → Option (List (BitVec 8))
  | [], buf, _ => some buf
  | e :: es, buf, entry => do
    let buf ← writeHead buf entry e.blocklen e.namelen e.flags.toNat e.datalen
    let pdata := entry + sysctlheadSizeof
    let pstring := pdata + e.datalen
    let buf ← Buffer.write buf pdata e.data
    let buf ← Buffer.write buf pstring (e.name.1 ++ [0])
    emuGetLoop es buf (entry + e.blocklen)

/-- `kesysctl_emu_get`. A buffer that is too small is a question for the length. -/
def kesysctlEmuGet (es : List SysctlEntry) (buf : List (BitVec 8)) : Option (List (BitVec 8)) :=
  if buf.length < sizeneeded es then Buffer.write buf 4 (Buffer.bytesOf 4 (sizeneeded es))
  else emuGetLoop es buf dnIdSizeof

/-- The loop of `kesysctl_emu_set`, with its result and the variables after it. -/
def emuSetLoop (p : List (BitVec 8)) (pdata pstring datalen : ℕ) :
    List SysctlEntry → Option (ℤ × List SysctlEntry)
  | [] => some (0, [])
  | e :: es => do
    if ← strcmpEq e.name.1 p pstring then
      if datalen ≠ e.datalen then return (-1, e :: es)
      if e.flags &&& 3 = ctlflagRd then return (-1, e :: es)
      let data ← Buffer.slice p pdata e.datalen
      return (0, { e with data := data } :: es)
    let (ret, es) ← emuSetLoop p pdata pstring datalen es
    return (ret, e :: es)

/-- `kesysctl_emu_set`. -/
def kesysctlEmuSet (es : List SysctlEntry) (p : List (BitVec 8)) :
    Option (ℤ × List SysctlEntry) := do
  let datalen ← Buffer.read p (dnIdSizeof + 12) 4
  let pdata := dnIdSizeof + sysctlheadSizeof
  emuSetLoop p pdata (pdata + datalen) datalen es

/-- `do_config` on a message, with `EINVAL` as 22. Other commands are not considered. -/
def doConfigSysctl (es : List SysctlEntry) (p : List (BitVec 8)) :
    Option (ℤ × List SysctlEntry) := do
  if (← Buffer.read p 4 4) ≠ dnApiVersion then return (22, es)
  let len ← Buffer.read p 0 2
  if len < dnIdSizeof ∨ p.length < len then return (22, es)
  if (← Buffer.read p 2 1) ≠ dnSysctlSet then none
  kesysctlEmuSet es p

/-- `IP_DUMMYNET3` as a set. The error is 0 also for a message that is too long. -/
def ipDnCtlSet (es : List SysctlEntry) (p : List (BitVec 8)) : Option (ℤ × List SysctlEntry) :=
  if p.length < dnIdSizeof ∨ 12000 < p.length then some (0, es) else doConfigSysctl es p

/-! ### `sysctlbyname` -/

/-- `malloc`, with what is in the memory. -/
def mallocBytes (content : ℕ → BitVec 8) (l : ℕ) : List (BitVec 8) := (List.range l).map content

/-- The assignments to the fields of a `struct dn_id`. -/
def writeDnId (buf : List (BitVec 8)) (len type : ℕ) : Option (List (BitVec 8)) := do
  let buf ← Buffer.write buf 0 (Buffer.bytesOf 2 len)
  let buf ← Buffer.write buf 2 (Buffer.bytesOf 1 type)
  Buffer.write buf 4 (Buffer.bytesOf 4 dnApiVersion)

/-- The two requests of a get: for the length, and for the table. -/
def sysctlReply (es : List SysctlEntry) (content : ℕ → BitVec 8) : Option (List (BitVec 8)) := do
  let oid ← writeDnId (mallocBytes content dnIdSizeof) dnIdSizeof dnSysctlGet
  let oid ← kesysctlEmuGet es oid
  let l ← Buffer.read oid 4 4
  let oid ← writeDnId (mallocBytes content l) l dnSysctlGet
  kesysctlEmuGet es oid

/-- `while (entry->blocklen != 0)`: the entries that are seen, and what the body returns, if it
does. Every step goes on in the buffer. -/
def walk {ρ : Type} (body : ℕ → Option (Option ρ)) (buf : List (BitVec 8)) :
    ℕ → ℕ → Option (List ℕ × Option ρ)
  | 0, _ => none
  | fuel + 1, entry => do
    let blocklen ← Buffer.read buf entry 4
    if blocklen = 0 then return ([], none)
    match ← body entry with
    | some r => return ([entry], some r)
    | none =>
      let (seen, r) ← walk body buf fuel (entry + blocklen)
      return (entry :: seen, r)

/-- What a get returns: -1, or 0 with or without data. -/
inductive GetResult
  | failed
  | nothing
  | copied (data : List (BitVec 8))
deriving DecidableEq

/-- The body of the loop for a get. -/
def compareEntry (buf : List (BitVec 8)) (name : CString) (oldlen entry : ℕ) :
    Option (Option GetResult) := do
  let datalen ← Buffer.read buf (entry + 12) 4
  let pdata := entry + sysctlheadSizeof
  if ← strcmpEq name.1 buf (pdata + datalen) then
    if oldlen < datalen then return some .failed
    return some (.copied (← Buffer.slice buf pdata datalen))
  return none

/-- `sysctlbyname` as a get, with a buffer of `oldlen` bytes. -/
def sysctlGet (es : List SysctlEntry) (content : ℕ → BitVec 8) (name : CString) (oldlen : ℕ) :
    Option GetResult := do
  let oid ← sysctlReply es content
  let (_, r) ← walk (compareEntry oid name oldlen) oid (oid.length + 1) dnIdSizeof
  return r.getD .nothing

/-- The length of the message with a new value. -/
def messageLen (name : CString) (val : List (BitVec 8)) : ℕ :=
  dnIdSizeof + sysctlheadSizeof + (name.1.length + 1) + val.length

/-- The message with a new value. -/
def setMessage (content : ℕ → BitVec 8) (l : ℕ) (name : CString) (val : List (BitVec 8)) :
    Option (List (BitVec 8)) := do
  let oid ← writeDnId (mallocBytes content l) l dnSysctlSet
  let pdata := dnIdSizeof + sysctlheadSizeof
  let pstring := pdata + val.length
  let oid ← writeHead oid dnIdSizeof
    (roundUp4 (sysctlheadSizeof + (name.1.length + 1) + val.length)) (name.1.length + 1) 0
    val.length
  let oid ← Buffer.write oid pdata val
  Buffer.write oid pstring (name.1 ++ [0])

/-- `sysctlbyname` as a set, with the variables after it. It goes on to the return for invalid
options also after a success. -/
def sysctlSet (es : List SysctlEntry) (content : ℕ → BitVec 8) (name : CString)
    (val : List (BitVec 8)) : Option (ℤ × List SysctlEntry) := do
  -- The length is of type `int`.
  let l := messageLen name val % 2 ^ 32
  if 2 ^ 31 ≤ l then return (-1, es)
  let oid ← setMessage content l name val
  let (ret, es) ← ipDnCtlSet es oid
  if ret ≠ 0 then return (-1, es)
  return (-1, es)

end Dummynet.Tool
