import Dummynet.Tool.Number

/-!
# The configuration of pipes

`ipfw_config_pipe` turns its arguments into the fields of a request. Numbers pass through 32 bits
and are multiplied there, and the limits are compared with what is left of them.

## Main definitions

* `parseConfig`: the loop over the arguments, up to the settings that they make.
* `configStep`, `configPipe`: what the settings do to the request.
* `Denoted`: the integers that the arguments stand for.
* `Setting.Fits`: the integers of a setting fit their fields.

## Main results

* `configStep_matches`: a setting is exact if and only if its integers fit.
* `configPipe_iff`: so is a request.
-/

namespace Dummynet.Tool

/-! ### The arguments -/

/-- The fields of a mask that take a number. -/
inductive MaskField
  | dstIp | srcIp | dstPort | srcPort | proto | flowId | dstIp6 | srcIp6
  deriving DecidableEq

/-- The tokens of `dummynet_params`. The ones that set a parameter of the scheduler are one. -/
inductive ConfigToken
  | plr | noerror | buckets | par | all | mask | droptail | red | bw | delay | link | sched | queue
  | flowset | type | profile | burst
  | field (f : MaskField)
  deriving DecidableEq

/-- `dummynet_params`. -/
def dummynetParams : List (List Char × ConfigToken) :=
  [(['p', 'l', 'r'], .plr),
   (['n', 'o', 'e', 'r', 'r', 'o', 'r'], .noerror),
   (['b', 'u', 'c', 'k', 'e', 't', 's'], .buckets),
   (['d', 's', 't', '-', 'i', 'p'], .field .dstIp),
   (['s', 'r', 'c', '-', 'i', 'p'], .field .srcIp),
   (['d', 's', 't', '-', 'p', 'o', 'r', 't'], .field .dstPort),
   (['s', 'r', 'c', '-', 'p', 'o', 'r', 't'], .field .srcPort),
   (['p', 'r', 'o', 't', 'o'], .field .proto),
   (['w', 'e', 'i', 'g', 'h', 't'], .par),
   (['l', 'm', 'a', 'x'], .par),
   (['m', 'a', 'x', 'l', 'e', 'n'], .par),
   (['a', 'l', 'l'], .all),
   (['m', 'a', 's', 'k'], .mask),
   (['s', 'c', 'h', 'e', 'd', '_', 'm', 'a', 's', 'k'], .mask),
   (['f', 'l', 'o', 'w', '_', 'm', 'a', 's', 'k'], .mask),
   (['d', 'r', 'o', 'p', 't', 'a', 'i', 'l'], .droptail),
   (['r', 'e', 'd'], .red),
   (['g', 'r', 'e', 'd'], .red),
   (['b', 'w'], .bw),
   (['b', 'a', 'n', 'd', 'w', 'i', 'd', 't', 'h'], .bw),
   (['d', 'e', 'l', 'a', 'y'], .delay),
   (['l', 'i', 'n', 'k'], .link),
   (['p', 'i', 'p', 'e'], .sched),
   (['q', 'u', 'e', 'u', 'e'], .queue),
   (['f', 'l', 'o', 'w', 's', 'e', 't'], .flowset),
   (['s', 'c', 'h', 'e', 'd'], .sched),
   (['p', 'r', 'i'], .par),
   (['p', 'r', 'i', 'o', 'r', 'i', 't', 'y'], .par),
   (['t', 'y', 'p', 'e'], .type),
   (['f', 'l', 'o', 'w', '-', 'i', 'd'], .field .flowId),
   (['d', 's', 't', '-', 'i', 'p', 'v', '6'], .field .dstIp6),
   (['d', 's', 't', '-', 'i', 'p', '6'], .field .dstIp6),
   (['s', 'r', 'c', '-', 'i', 'p', 'v', '6'], .field .srcIp6),
   (['s', 'r', 'c', '-', 'i', 'p', '6'], .field .srcIp6),
   (['p', 'r', 'o', 'f', 'i', 'l', 'e'], .profile),
   (['b', 'u', 'r', 's', 't'], .burst)]

/-- `match_token`. -/
def matchToken (s : List Char) : Option ConfigToken :=
  (dummynetParams.find? fun p => p.1 = s).map Prod.snd

/-- What is configured. -/
inductive ConfigKind
  | pipe | queue | sched
  deriving DecidableEq

/-- The settings that matter for the numbers. -/
inductive Setting
  | bw (arg : List Char)
  | delay (arg : List Char)
  | queue (arg : List Char)
  | red (arg : List Char)
  | droptail
  | profile (arg : List Char)
  | clearMask
  | maskAll
  | maskQueue
  | maskField (f : MaskField) (arg : List Char)

/-- The C library and the kernel: `strtod`, the arguments of `burst` that `expand_number` accepts in
the range, the bandwidth of a profile that can be loaded, the limits of a queue, and whether the
variables for RED are not 0. -/
structure ToolEnv where
  strtod : List Char → ℚ
  burstOk : List Char → Bool
  loadProfile : List Char → Option (Option (BitVec 32))
  byteLimit : ℤ
  slotLimit : ℤ
  redOk : Bool

/-- The loop of `ipfw_config_pipe` over the arguments, which may be in a mask. It gives the settings
up to an argument that is rejected, and whether there was none. -/
def parseConfig (E : ToolEnv) (kind : ConfigKind) : Bool → List (List Char) → List Setting × Bool
  | _, [] => ([], true)
  | inMask, t :: ts =>
    let add (s : List Setting) (r : List Setting × Bool) : List Setting × Bool := (s ++ r.1, r.2)
    match inMask, matchToken t, ts with
    | true, some .all, ts => add [.maskAll] (parseConfig E kind false ts)
    | true, some .queue, ts => add [.maskQueue] (parseConfig E kind false ts)
    | true, some (.field _), [] => ([], false)
    | true, some (.field f), a :: ts => add [.maskField f a] (parseConfig E kind true ts)
    | _, some .noerror, ts => parseConfig E kind false ts
    | _, some .droptail, ts => add [.droptail] (parseConfig E kind false ts)
    | _, some .mask, ts =>
      if ts.isEmpty then ([], false) else add [.clearMask] (parseConfig E kind true ts)
    | _, some .plr, _ :: ts => parseConfig E kind false ts
    | _, some .buckets, _ :: ts => parseConfig E kind false ts
    | _, some .par, _ :: ts => parseConfig E kind false ts
    | _, some .sched, _ :: ts => parseConfig E kind false ts
    | _, some .queue, a :: ts => add [.queue a] (parseConfig E kind false ts)
    | _, some .red, a :: ts => add [.red a] (parseConfig E kind false ts)
    | _, some .bw, a :: ts =>
      if kind = .pipe then add [.bw a] (parseConfig E kind false ts) else ([], false)
    | _, some .delay, a :: ts =>
      if kind = .pipe then add [.delay a] (parseConfig E kind false ts) else ([], false)
    | _, some .profile, a :: ts =>
      if kind = .pipe then add [.profile a] (parseConfig E kind false ts) else ([], false)
    | _, some .type, a :: ts =>
      if kind = .queue ∨ a.length = 0 ∨ 15 < a.length then ([], false)
      else parseConfig E kind false ts
    | _, some .burst, a :: ts =>
      if kind = .pipe ∧ E.burstOk a then parseConfig E kind false ts else ([], false)
    | _, _, _ => ([], false)

/-! ### The request -/

/-- The mask of a flow, in a request. -/
structure FlowMask where
  dstIp : BitVec 32 := 0
  srcIp : BitVec 32 := 0
  dstPort : BitVec 16 := 0
  srcPort : BitVec 16 := 0
  proto : BitVec 8 := 0
  flowId6 : BitVec 32 := 0
  dstIp6 : List (BitVec 8) := List.replicate 16 0
  srcIp6 : List (BitVec 8) := List.replicate 16 0
  extra : BitVec 32 := 0

/-- The fields of a request that are numbers of arguments, and what is needed for their limits. -/
structure Request where
  bandwidth : BitVec 32 := -1
  delay : BitVec 32 := 0
  qsize : BitVec 32 := 0
  qsizeBytes : Bool := false
  isRed : Bool := false
  minTh : BitVec 32 := 0
  maxTh : BitVec 32 := 0
  mask : FlowMask := {}
  profile : Bool := false

/-- The argument is rejected, or the behaviour is undefined. -/
inductive ConfigFail
  | rejected
  | undefined
  deriving DecidableEq

/-- The text starts with the unit `K`. -/
def unitK (e : List Char) : Bool := e.head? = some 'K' || e.head? = some 'k'

/-- The text starts with the unit `M`. -/
def unitM (e : List Char) : Bool := e.head? = some 'M' || e.head? = some 'm'

/-- The text starts with `by`. -/
def unitBy (e : List Char) : Bool := ['b', 'y'].isPrefixOf e

/-- The text is in bytes. -/
def unitBytes (e : List Char) : Bool :=
  (e.head? = some 'B' && not (['B', 'i'].isPrefixOf e)) || unitBy e

/-- `read_bandwidth`, without an interface. It fails for a name or a negative number. -/
def readBandwidth (arg : List Char) : Option (BitVec 32) :=
  if arg.head?.any fun c => 'a' ≤ c ∧ c ≤ 'z' then none
  else
    let (n, e) := strtoul arg
    let bw : BitVec 32 := n.setWidth 32
    let (bw, e) := if unitK e then (bw * 1000, e.tail)
      else if unitM e then (bw * 1000000, e.tail) else (bw, e)
    let bw := if unitBytes e then bw * 8 else bw
    if bw.toInt < 0 then none else some bw

/-- A number of slots or bytes. -/
def readSize (arg : List Char) : BitVec 32 :=
  let (n, e) := strtoul arg
  let x : BitVec 32 := n.setWidth 32
  if unitK e then x * 1024 else x

/-- A size is in bytes. -/
def sizeInBytes (arg : List Char) : Bool :=
  let e := (strtoul arg).2
  unitK e || e.head? = some 'B' || unitBy e

/-- `n2mask`. -/
def n2mask (n : ℕ) : List (BitVec 8) :=
  (List.range 16).map fun i =>
    if 8 * (i + 1) ≤ n then 0xff
    else ([0x00, 0x80, 0xc0, 0xe0, 0xf0, 0xf8, 0xfc, 0xfe].getD (n - 8 * i) 0 : BitVec 8)

/-- The field of a mask is an address of IPv6. -/
def MaskField.isIp6 (f : MaskField) : Bool := f = .dstIp6 || f = .srcIp6

/-- The number of a mask. A shift by more than the width is undefined. -/
def readMask (f : MaskField) (arg : List Char) : Option (BitVec 32) :=
  if arg.head? = some '/' then
    let a : BitVec 32 := (strtoul arg.tail).1.setWidth 32
    if f.isIp6 then some a
    else if 32 < a.toNat then none
    else some (if a = 32 then BitVec.allOnes 32 else 1 <<< a.toNat - 1)
  else some ((strtoul arg).1.setWidth 32)

/-- Stores the number of a mask. -/
def FlowMask.store (m : FlowMask) (f : MaskField) (a : BitVec 32) : Option FlowMask :=
  match f with
  | .dstIp => some { m with dstIp := a }
  | .srcIp => some { m with srcIp := a }
  | .dstPort => if 0xffff < a.toNat then none else some { m with dstPort := a.setWidth 16 }
  | .srcPort => if 0xffff < a.toNat then none else some { m with srcPort := a.setWidth 16 }
  | .flowId => if 0xfffff < a.toNat then none else some { m with flowId6 := a }
  | .dstIp6 => if 128 < a.toNat then none else some { m with dstIp6 := n2mask a.toNat }
  | .srcIp6 => if 128 < a.toNat then none else some { m with srcIp6 := n2mask a.toNat }
  | .proto => if 0xff < a.toNat then none else some { m with proto := a.setWidth 8 }

/-- `mask all`. -/
def FlowMask.full : FlowMask where
  dstIp := BitVec.allOnes 32
  srcIp := BitVec.allOnes 32
  dstPort := BitVec.allOnes 16
  srcPort := BitVec.allOnes 16
  proto := BitVec.allOnes 8
  flowId6 := BitVec.allOnes 32
  dstIp6 := n2mask 128
  srcIp6 := n2mask 128

/-- The probability is in the range of RED. -/
def ToolEnv.ratioOk (E : ToolEnv) (s : Option (List Char)) : Bool :=
  s.all fun t => 0 < E.strtod t && E.strtod t ≤ 1

/-- One setting. -/
def configStep (E : ToolEnv) (r : Request) : Setting → Except ConfigFail Request
  | .bw arg =>
    match readBandwidth arg with
    | some bw => .ok { r with bandwidth := bw }
    | none => .error .rejected
  | .delay arg => .ok { r with delay := (strtoul arg).1.setWidth 32 }
  | .queue arg =>
    .ok { r with qsize := readSize arg, qsizeBytes := r.qsizeBytes || sizeInBytes arg }
  | .red arg =>
    let fields := arg.splitOn '/'
    if E.ratioOk fields[0]? && E.ratioOk fields[3]? then
      .ok { r with
        isRed := true
        minTh := (fields[1]?.map readSize).getD r.minTh
        maxTh := (fields[2]?.map readSize).getD r.maxTh }
    else .error .rejected
  | .droptail => .ok { r with isRed := false }
  | .profile arg =>
    if r.profile then .error .rejected
    else
      match E.loadProfile arg with
      | none => .error .rejected
      | some bw => .ok { r with bandwidth := bw.getD r.bandwidth, profile := true }
  | .clearMask => .ok { r with mask := {} }
  | .maskAll => .ok { r with mask := { FlowMask.full with extra := r.mask.extra } }
  | .maskQueue => .ok { r with mask := { r.mask with extra := BitVec.allOnes 32 } }
  | .maskField f arg =>
    match readMask f arg with
    | none => .error .undefined
    | some a =>
      match r.mask.store f a with
      | none => .error .rejected
      | some m => .ok { r with mask := m }

/-- The limit of the queue size. -/
def ToolEnv.limit (E : ToolEnv) (r : Request) : ℤ :=
  if r.qsizeBytes then E.byteLimit else E.slotLimit

/-- The checks after the loop. -/
def finishConfig (E : ToolEnv) (kind : ConfigKind) (r : Request) : Except ConfigFail Request :=
  if kind = .pipe ∧ 10000 < r.delay.toInt then .error .rejected
  else if E.limit r < r.qsize.toInt then .error .rejected
  else if r.isRed ∧ (r.maxTh.toInt ≤ r.minTh.toInt ∨ r.maxTh = 0 ∨ E.redOk = false) then
    .error .rejected
  else .ok { r with bandwidth := if r.bandwidth = -1 then 0 else r.bandwidth }

/-- `ipfw_config_pipe`, up to the request. -/
def configPipe (E : ToolEnv) (kind : ConfigKind) (av : List (List Char)) :
    Except ConfigFail Request := do
  let r ← (parseConfig E kind false av).1.foldlM (configStep E) {}
  if (parseConfig E kind false av).2 then finishConfig E kind r else .error .rejected

/-! ### What the arguments denote -/

/-- The unit of a bandwidth. -/
def bandwidthUnit (e : List Char) : ℤ :=
  if unitK e then if unitBytes e.tail then 1000 * 8 else 1000
  else if unitM e then if unitBytes e.tail then 1000000 * 8 else 1000000
  else if unitBytes e then 8 else 1

/-- The bandwidth that an argument denotes, in bits per second. -/
def exactBandwidth (arg : List Char) : ℤ :=
  (scanNumber arg).1 * bandwidthUnit (scanNumber arg).2

/-- The size that an argument denotes, in slots or bytes. -/
def exactSize (arg : List Char) : ℤ :=
  (scanNumber arg).1 * if unitK (scanNumber arg).2 then 1024 else 1

/-- The mask that an argument denotes: `/len` stands for `len` ones, and for an address of IPv6 the
number is its length. -/
def exactMask (f : MaskField) (arg : List Char) : ℤ :=
  if arg.head? = some '/' then
    let n := (scanNumber arg.tail).1
    if f.isIp6 then n else if n < 0 then -1 else 2 ^ n.toNat - 1
  else (scanNumber arg).1

/-- The integers that the arguments denote. -/
structure Denoted where
  bandwidth : ℤ := -1
  delay : ℤ := 0
  qsize : ℤ := 0
  minTh : ℤ := 0
  maxTh : ℤ := 0
  mask : MaskField → ℤ := fun _ => 0

/-- The largest mask of a field. -/
def MaskField.full : MaskField → ℤ
  | .dstIp | .srcIp | .flowId => 2 ^ 32 - 1
  | .dstPort | .srcPort => 2 ^ 16 - 1
  | .proto => 2 ^ 8 - 1
  | .dstIp6 | .srcIp6 => 128

/-- What a setting denotes. -/
def Denoted.step (E : ToolEnv) (d : Denoted) : Setting → Denoted
  | .bw arg => { d with bandwidth := exactBandwidth arg }
  | .delay arg => { d with delay := (scanNumber arg).1 }
  | .queue arg => { d with qsize := exactSize arg }
  | .red arg =>
    { d with
      minTh := ((arg.splitOn '/')[1]?.map exactSize).getD d.minTh
      maxTh := ((arg.splitOn '/')[2]?.map exactSize).getD d.maxTh }
  | .profile arg =>
    { d with bandwidth := (((E.loadProfile arg).getD none).map BitVec.toInt).getD d.bandwidth }
  | .clearMask => { d with mask := fun _ => 0 }
  | .maskAll => { d with mask := MaskField.full }
  | .maskField f arg => { d with mask := Function.update d.mask f (exactMask f arg) }
  | .droptail | .maskQueue => d

/-- The integers of a setting fit the variables that they pass through. -/
def Setting.Fits : Setting → Prop
  | .bw arg => FitsSigned (exactBandwidth arg)
  | .delay arg => FitsSigned (scanNumber arg).1
  | .queue arg => FitsSigned (exactSize arg)
  | .red arg => (∀ t ∈ (arg.splitOn '/')[1]?, FitsSigned (exactSize t)) ∧
    ∀ t ∈ (arg.splitOn '/')[2]?, FitsSigned (exactSize t)
  | .maskField f arg => FitsUnsigned (exactMask f arg)
  | .droptail | .profile _ | .clearMask | .maskAll | .maskQueue => True

instance : DecidablePred Setting.Fits
  | .bw _ | .delay _ | .queue _ => inferInstanceAs (Decidable (FitsSigned _))
  | .red _ => inferInstanceAs (Decidable (_ ∧ _))
  | .maskField _ _ => inferInstanceAs (Decidable (FitsUnsigned _))
  | .droptail | .profile _ | .clearMask | .maskAll | .maskQueue =>
    inferInstanceAs (Decidable True)

/-- The number of an address of IPv6. -/
def addrValue (l : List (BitVec 8)) : ℕ := l.foldl (fun n b => n * 256 + b.toNat) 0

/-- The address of IPv6 has `v` ones, and zeros after them. -/
def PrefixMask (l : List (BitVec 8)) (v : ℤ) : Prop :=
  0 ≤ v ∧ v ≤ 128 ∧ addrValue l = 2 ^ 128 - 2 ^ (128 - v.toNat)

/-- A field of a mask is the integer, or has as many ones. -/
def FlowMask.Holds (m : FlowMask) (f : MaskField) (v : ℤ) : Prop :=
  match f with
  | .dstIp => (m.dstIp.toNat : ℤ) = v
  | .srcIp => (m.srcIp.toNat : ℤ) = v
  | .dstPort => (m.dstPort.toNat : ℤ) = v
  | .srcPort => (m.srcPort.toNat : ℤ) = v
  | .proto => (m.proto.toNat : ℤ) = v
  | .flowId => (m.flowId6.toNat : ℤ) = v
  | .dstIp6 => PrefixMask m.dstIp6 v
  | .srcIp6 => PrefixMask m.srcIp6 v

/-- The fields of a request are the integers. -/
structure Request.Matches (r : Request) (d : Denoted) : Prop where
  bandwidth : r.bandwidth.toInt = d.bandwidth
  delay : r.delay.toInt = d.delay
  qsize : r.qsize.toInt = d.qsize
  minTh : r.minTh.toInt = d.minTh
  maxTh : r.maxTh.toInt = d.maxTh
  mask : ∀ f, r.mask.Holds f (d.mask f)

/-! ### One number -/

variable {arg e : List Char} {f : MaskField} {a bw : BitVec 32} {m m' : FlowMask} {E : ToolEnv}
  {r r' : Request} {d : Denoted} {s : Setting} {ss : List Setting} {kind : ConfigKind}
  {av : List (List Char)} {v : ℤ}

theorem bandwidthUnit_pos : 0 < bandwidthUnit e := by
  unfold bandwidthUnit
  split_ifs <;> decide

/-- The multiplications are one by the unit. -/
theorem readBandwidth_eq (h : readBandwidth arg = some bw) :
    bw = (strtoul arg).1.setWidth 32 * BitVec.ofInt 32 (bandwidthUnit (scanNumber arg).2) := by
  unfold readBandwidth at h
  rw [← strtoul_snd]
  generalize strtoul arg = x at h ⊢
  obtain ⟨n, e⟩ := x
  split_ifs at h with hname
  dsimp only at h ⊢
  generalize n.setWidth 32 = b at h ⊢
  unfold bandwidthUnit
  by_cases hk : unitK e
  · rw [if_pos hk] at h ⊢
    dsimp only at h
    split_ifs at h ⊢
    · rw [← Option.some.inj h, BitVec.mul_assoc]
      rfl
    · rw [← Option.some.inj h]
      rfl
  rw [if_neg hk] at h ⊢
  by_cases hm : unitM e
  · rw [if_pos hm] at h ⊢
    dsimp only at h
    split_ifs at h ⊢
    · rw [← Option.some.inj h, BitVec.mul_assoc]
      rfl
    · rw [← Option.some.inj h]
      rfl
  · rw [if_neg hm] at h ⊢
    dsimp only at h
    split_ifs at h ⊢
    · rw [← Option.some.inj h]
      rfl
    · rw [← Option.some.inj h, show BitVec.ofInt 32 1 = 1#32 by decide, BitVec.mul_one]

theorem readBandwidth_exact (h : readBandwidth arg = some bw) :
    bw.toInt = exactBandwidth arg ↔ FitsSigned (exactBandwidth arg) := by
  refine ⟨fun heq => heq ▸ fitsSigned_toInt, fun hfits => ?_⟩
  rw [readBandwidth_eq h]
  exact narrow_mul_toInt bandwidthUnit_pos hfits

theorem readSize_exact :
    (readSize arg).toInt = exactSize arg ↔ FitsSigned (exactSize arg) := by
  refine ⟨fun heq => heq ▸ fitsSigned_toInt, fun hfits => ?_⟩
  have hread : readSize arg = (strtoul arg).1.setWidth 32 *
      BitVec.ofInt 32 (if unitK (scanNumber arg).2 then 1024 else 1) := by
    unfold readSize
    dsimp only
    rw [strtoul_snd]
    split_ifs
    · rfl
    · rw [show BitVec.ofInt 32 1 = 1#32 by decide, BitVec.mul_one]
  rw [hread]
  refine narrow_mul_toInt ?_ hfits
  split_ifs <;> decide

theorem delay_exact : ((strtoul arg).1.setWidth 32).toInt = (scanNumber arg).1 ↔
    FitsSigned (scanNumber arg).1 := by
  refine ⟨fun heq => heq ▸ fitsSigned_toInt, fun hfits => ?_⟩
  have hmul := @narrow_mul_toInt arg 1 (by decide) (by rwa [Int.mul_one])
  rwa [show BitVec.ofInt 32 1 = 1#32 by decide, BitVec.mul_one, Int.mul_one] at hmul

/-! ### One mask -/

theorem allOnes_toNat {a₀ : BitVec 32} (h : a₀.toNat ≤ 32) :
    (if a₀ = 32 then BitVec.allOnes 32 else 1 <<< a₀.toNat - 1 : BitVec 32).toNat =
      2 ^ a₀.toNat - 1 := by
  have hall : ∀ k : ℕ, k ≤ 32 → (if BitVec.ofNat 32 k = 32 then BitVec.allOnes 32
      else 1 <<< k - 1 : BitVec 32).toNat = 2 ^ k - 1 := by decide
  have hk := hall a₀.toNat h
  rwa [BitVec.ofNat_toNat, BitVec.setWidth_eq] at hk

theorem strtoul_fits {t : List Char} (h : FitsUnsigned (scanNumber t).1) :
    (((strtoul t).1.setWidth 32 : BitVec 32).toNat : ℤ) = (scanNumber t).1 := by
  obtain ⟨hlo, hhi⟩ := h
  rw [narrow_eq (by omega)]
  exact FitsUnsigned.toNat_ofInt ⟨hlo, hhi⟩

/-- A mask of ones that fits has a length of at most 32. -/
theorem ones_fits {n : ℤ} (h : FitsUnsigned (if n < 0 then -1 else 2 ^ n.toNat - 1)) :
    0 ≤ n ∧ n ≤ 32 := by
  obtain ⟨hlo, hhi⟩ := h
  split_ifs at hlo hhi with hneg
  · omega
  have hle : n.toNat ≤ 32 := by
    by_contra hgt
    have hpow : (2 : ℤ) ^ 33 ≤ 2 ^ n.toNat :=
      pow_le_pow_right₀ (by decide) (by omega)
    omega
  omega

theorem toNat_fits (a : BitVec 32) : FitsUnsigned a.toNat := by
  have := a.isLt
  constructor <;> omega

/-- The number of a mask is exact if it fits, and only then. -/
theorem readMask_spec : match readMask f arg with
    | some a => (a.toNat : ℤ) = exactMask f arg ↔ FitsUnsigned (exactMask f arg)
    | none => ¬ FitsUnsigned (exactMask f arg) := by
  unfold readMask exactMask
  by_cases hslash : arg.head? = some '/'
  · rw [if_pos hslash, if_pos hslash]
    dsimp only
    by_cases hip6 : f.isIp6
    · rw [if_pos hip6, if_pos hip6]
      exact ⟨fun heq => heq ▸ toNat_fits _, strtoul_fits⟩
    rw [if_neg hip6, if_neg hip6]
    have hlen : FitsUnsigned (if (scanNumber arg.tail).1 < 0 then -1
          else 2 ^ (scanNumber arg.tail).1.toNat - 1) →
        (((strtoul arg.tail).1.setWidth 32 : BitVec 32).toNat : ℤ) = (scanNumber arg.tail).1 ∧
          0 ≤ (scanNumber arg.tail).1 ∧ (scanNumber arg.tail).1 ≤ 32 := by
      intro hfits
      obtain ⟨hlo, hhi⟩ := ones_fits hfits
      exact ⟨strtoul_fits ⟨hlo, by omega⟩, hlo, hhi⟩
    generalize (scanNumber arg.tail).1 = n at hlen ⊢
    generalize ((strtoul arg.tail).1.setWidth 32 : BitVec 32) = a₀ at hlen ⊢
    by_cases hbig : 32 < a₀.toNat
    · rw [if_pos hbig]
      intro hfits
      have := hlen hfits
      omega
    · rw [if_neg hbig]
      dsimp only
      rw [allOnes_toNat (not_lt.1 hbig)]
      refine ⟨fun heq => ?_, fun hfits => ?_⟩
      · rw [← heq, ← allOnes_toNat (not_lt.1 hbig)]
        exact toNat_fits _
      · obtain ⟨heq, hlo, -⟩ := hlen hfits
        rw [if_neg (not_lt.2 hlo), ← heq, Int.toNat_natCast, Nat.cast_sub Nat.one_le_two_pow]
        push_cast
        rfl
  · rw [if_neg hslash, if_neg hslash]
    exact ⟨fun heq => heq ▸ toNat_fits _, strtoul_fits⟩

theorem n2mask_value : ∀ n ≤ 128, addrValue (n2mask n) = 2 ^ 128 - 2 ^ (128 - n) := by
  decide +kernel

theorem prefixMask_n2mask {n : ℕ} (hn : n ≤ 128) : PrefixMask (n2mask n) v ↔ (n : ℤ) = v := by
  unfold PrefixMask
  rw [n2mask_value n hn]
  constructor
  · rintro ⟨hlo, hhi, heq⟩
    have h₁ : 2 ^ (128 - n) ≤ 2 ^ 128 := Nat.pow_le_pow_right (by decide) (Nat.sub_le _ _)
    have h₂ : 2 ^ (128 - v.toNat) ≤ 2 ^ 128 := Nat.pow_le_pow_right (by decide) (Nat.sub_le _ _)
    have hpow : 2 ^ (128 - n) = 2 ^ (128 - v.toNat) := by omega
    have := Nat.pow_right_injective (le_refl 2) hpow
    omega
  · rintro rfl
    exact ⟨by omega, by omega, rfl⟩

theorem store_holds (h : m.store f a = some m') : m'.Holds f v ↔ (a.toNat : ℤ) = v := by
  have hw (k : ℕ) (hk : ¬ 2 ^ k - 1 < a.toNat) (h32 : k ≤ 32) :
      (a.setWidth k).toNat = a.toNat := by
    rw [BitVec.toNat_setWidth]
    exact Nat.mod_eq_of_lt (by have := Nat.one_le_two_pow (n := k); omega)
  unfold FlowMask.store at h
  cases f <;> dsimp only at h <;> try split_ifs at h with hbig
  all_goals
    obtain rfl := Option.some.inj h
    unfold FlowMask.Holds
    dsimp only
  · exact Iff.rfl
  · exact Iff.rfl
  · rw [hw 16 hbig (by decide)]
  · rw [hw 16 hbig (by decide)]
  · rw [hw 8 hbig (by decide)]
  · exact Iff.rfl
  · exact prefixMask_n2mask (not_lt.1 hbig)
  · exact prefixMask_n2mask (not_lt.1 hbig)

theorem store_holds_ne {g : MaskField} (h : m.store f a = some m') (hne : g ≠ f) :
    m'.Holds g v ↔ m.Holds g v := by
  unfold FlowMask.store at h
  cases f <;> dsimp only at h <;> try split_ifs at h
  all_goals
    obtain rfl := Option.some.inj h
    cases g <;> first | exact absurd rfl hne | exact Iff.rfl

/-! ### The request -/

theorem field_exact {o : Option (List Char)} {x : BitVec 32} {n : ℤ} (hx : x.toInt = n) :
    ((o.map readSize).getD x).toInt = (o.map exactSize).getD n ↔
      ∀ t ∈ o, FitsSigned (exactSize t) := by
  cases o with
  | none => exact iff_of_true hx fun t ht => by cases ht
  | some t =>
    refine readSize_exact.trans ⟨fun h t' ht => ?_, fun h => h t rfl⟩
    obtain rfl := Option.some.inj ht
    exact h

theorem emptyMask_holds (f : MaskField) : ({} : FlowMask).Holds f 0 := by
  have h0 : PrefixMask (List.replicate 16 0) 0 := ⟨le_rfl, by decide, by decide +kernel⟩
  cases f <;> first | exact h0 | rfl

theorem fullMask_holds {x : BitVec 32} (f : MaskField) :
    { FlowMask.full with extra := x }.Holds f f.full := by
  have h128 : PrefixMask (n2mask 128) 128 := (prefixMask_n2mask le_rfl).2 rfl
  cases f <;> first | exact h128 | rfl

/-- **One setting** is exact if its integers fit, and only then. -/
theorem configStep_matches (hm : r.Matches d) (h : configStep E r s = .ok r') :
    r'.Matches (d.step E s) ↔ s.Fits := by
  cases s with
  | bw arg =>
    unfold configStep at h
    dsimp only at h
    cases hbw : readBandwidth arg with
    | none =>
      rw [hbw] at h
      cases h
    | some bw =>
      rw [hbw] at h
      obtain rfl := Except.ok.inj h
      exact ⟨fun h => (readBandwidth_exact hbw).1 h.bandwidth, fun hfits =>
        ⟨(readBandwidth_exact hbw).2 hfits, hm.delay, hm.qsize, hm.minTh, hm.maxTh, hm.mask⟩⟩
  | delay arg =>
    obtain rfl := Except.ok.inj h
    exact ⟨fun h => delay_exact.1 h.delay, fun hfits =>
      ⟨hm.bandwidth, delay_exact.2 hfits, hm.qsize, hm.minTh, hm.maxTh, hm.mask⟩⟩
  | queue arg =>
    obtain rfl := Except.ok.inj h
    exact ⟨fun h => readSize_exact.1 h.qsize, fun hfits =>
      ⟨hm.bandwidth, hm.delay, readSize_exact.2 hfits, hm.minTh, hm.maxTh, hm.mask⟩⟩
  | red arg =>
    unfold configStep at h
    dsimp only at h
    split_ifs at h
    obtain rfl := Except.ok.inj h
    exact ⟨fun h => ⟨(field_exact hm.minTh).1 h.minTh, (field_exact hm.maxTh).1 h.maxTh⟩,
      fun hfits => ⟨hm.bandwidth, hm.delay, hm.qsize, (field_exact hm.minTh).2 hfits.1,
        (field_exact hm.maxTh).2 hfits.2, hm.mask⟩⟩
  | droptail =>
    obtain rfl := Except.ok.inj h
    exact iff_of_true ⟨hm.bandwidth, hm.delay, hm.qsize, hm.minTh, hm.maxTh, hm.mask⟩ trivial
  | profile arg =>
    unfold configStep at h
    dsimp only at h
    split_ifs at h
    unfold Denoted.step
    dsimp only
    cases hload : E.loadProfile arg with
    | none =>
      rw [hload] at h
      cases h
    | some bw =>
      rw [hload] at h
      obtain rfl := Except.ok.inj h
      refine iff_of_true ⟨?_, hm.delay, hm.qsize, hm.minTh, hm.maxTh, hm.mask⟩ trivial
      cases bw with
      | none => exact hm.bandwidth
      | some bw => rfl
  | clearMask =>
    obtain rfl := Except.ok.inj h
    exact iff_of_true
      ⟨hm.bandwidth, hm.delay, hm.qsize, hm.minTh, hm.maxTh, emptyMask_holds⟩ trivial
  | maskAll =>
    obtain rfl := Except.ok.inj h
    exact iff_of_true
      ⟨hm.bandwidth, hm.delay, hm.qsize, hm.minTh, hm.maxTh, fullMask_holds⟩ trivial
  | maskQueue =>
    obtain rfl := Except.ok.inj h
    exact iff_of_true ⟨hm.bandwidth, hm.delay, hm.qsize, hm.minTh, hm.maxTh, hm.mask⟩ trivial
  | maskField f arg =>
    have hread := @readMask_spec arg f
    unfold configStep at h
    dsimp only at h
    cases hmask : readMask f arg with
    | none =>
      rw [hmask] at h
      cases h
    | some a =>
      rw [hmask] at h hread
      dsimp only at h hread
      cases hstore : r.mask.store f a with
      | none =>
        rw [hstore] at h
        cases h
      | some m =>
        rw [hstore] at h
        obtain rfl := Except.ok.inj h
        constructor
        · intro h
          have hf := h.mask f
          unfold Denoted.step at hf
          dsimp only at hf
          rw [Function.update_self, store_holds hstore] at hf
          exact hread.1 hf
        · intro hfits
          refine ⟨hm.bandwidth, hm.delay, hm.qsize, hm.minTh, hm.maxTh, fun g => ?_⟩
          unfold Denoted.step
          dsimp only
          by_cases hg : g = f
          · subst hg
            rw [Function.update_self, store_holds hstore]
            exact hread.2 hfits
          · rw [Function.update_of_ne hg, store_holds_ne hstore hg]
            exact hm.mask g

theorem configStep_undefined (h : configStep E r s = .error .undefined) : ¬ s.Fits := by
  cases s with
  | maskField f arg =>
    have hread := @readMask_spec arg f
    unfold configStep at h
    dsimp only at h
    cases hmask : readMask f arg with
    | none =>
      rw [hmask] at hread
      exact hread
    | some a =>
      rw [hmask] at h
      dsimp only at h
      split at h <;> cases h
  | _ =>
    unfold configStep at h
    dsimp only at h
    repeat' split at h
    all_goals cases h

/-- Every setting is accepted, and what it stores is exact. -/
def ExactRun (E : ToolEnv) : Request → Denoted → List Setting → Prop
  | _, _, [] => True
  | r, d, s :: ss => ∃ r', configStep E r s = .ok r' ∧ r'.Matches (d.step E s) ∧
    ExactRun E r' (d.step E s) ss

/-- A sequence of settings. -/
theorem settings_exact {x : Except ConfigFail Request} (hm : r.Matches d)
    (hx : ss.foldlM (configStep E) r = x) (hne : x ≠ .error .rejected) :
    (ExactRun E r d ss ↔ ∀ s ∈ ss, s.Fits) ∧
      ((∀ s ∈ ss, s.Fits) → ∃ r', x = .ok r' ∧ r'.Matches (ss.foldl (Denoted.step E) d)) := by
  induction ss generalizing r d with
  | nil =>
    rw [← hx]
    exact ⟨iff_of_true trivial (fun s hs => by cases hs), fun _ => ⟨r, rfl, hm⟩⟩
  | cons s ss ih =>
    rw [List.foldlM_cons] at hx
    cases hstep : configStep E r s with
    | error c =>
      rw [hstep] at hx
      cases c with
      | rejected => exact absurd hx.symm hne
      | undefined =>
        have hnot : ¬ ∀ s' ∈ s :: ss, s'.Fits := fun hall =>
          configStep_undefined hstep (hall s List.mem_cons_self)
        refine ⟨iff_of_false ?_ hnot, fun hall => absurd hall hnot⟩
        rintro ⟨r', hr', -⟩
        rw [hstep] at hr'
        cases hr'
    | ok r₁ =>
      rw [hstep] at hx
      have hiff := configStep_matches hm hstep
      constructor
      · constructor
        · rintro ⟨r', hr', hm', hrun⟩
          obtain rfl := Except.ok.inj (hstep.symm.trans hr')
          exact List.forall_mem_cons.2 ⟨hiff.1 hm', (ih hm' hx).1.1 hrun⟩
        · intro hall
          obtain ⟨hfits, hrest⟩ := List.forall_mem_cons.1 hall
          exact ⟨r₁, hstep, hiff.2 hfits, (ih (hiff.2 hfits) hx).1.2 hrest⟩
      · intro hall
        obtain ⟨hfits, hrest⟩ := List.forall_mem_cons.1 hall
        exact (ih (hiff.2 hfits) hx).2 hrest

theorem emptyRequest_matches : Request.Matches {} {} :=
  ⟨by decide, by decide, by decide, by decide, by decide, emptyMask_holds⟩

/-- The request that is sent has the integers that the arguments denote, at every argument, and they
are within the limits. -/
def ToolEnv.Exact (E : ToolEnv) (kind : ConfigKind) (av : List (List Char)) : Prop :=
  let ss := (parseConfig E kind false av).1
  let d := ss.foldl (Denoted.step E) {}
  ∃ r, configPipe E kind av = .ok r ∧ ExactRun E {} {} ss ∧
    r.Matches { d with bandwidth := if d.bandwidth = -1 then 0 else d.bandwidth } ∧
    (kind = .pipe → d.delay ≤ 10000) ∧ d.qsize ≤ E.limit r

theorem finishConfig_cases : finishConfig E kind r = .error .rejected ∨
    finishConfig E kind r =
      .ok { r with bandwidth := if r.bandwidth = -1 then 0 else r.bandwidth } ∧
    (kind = .pipe → r.delay.toInt ≤ 10000) ∧ r.qsize.toInt ≤ E.limit r := by
  unfold finishConfig
  by_cases hdelay : kind = .pipe ∧ 10000 < r.delay.toInt
  · exact .inl (if_pos hdelay)
  rw [if_neg hdelay]
  by_cases hsize : E.limit r < r.qsize.toInt
  · exact .inl (if_pos hsize)
  rw [if_neg hsize]
  by_cases hred : r.isRed ∧ (r.maxTh.toInt ≤ r.minTh.toInt ∨ r.maxTh = 0 ∨ E.redOk = false)
  · exact .inl (if_pos hred)
  rw [if_neg hred]
  exact .inr ⟨rfl, fun hk => not_lt.1 fun hlt => hdelay ⟨hk, hlt⟩, not_lt.1 hsize⟩

/-- A bandwidth that is not set becomes 0. -/
theorem Request.Matches.default (hm : r.Matches d) :
    Request.Matches { r with bandwidth := if r.bandwidth = -1 then 0 else r.bandwidth }
      { d with bandwidth := if d.bandwidth = -1 then 0 else d.bandwidth } := by
  refine ⟨?_, hm.delay, hm.qsize, hm.minTh, hm.maxTh, hm.mask⟩
  have hone : (-1 : BitVec 32).toInt = -1 := by decide
  have hiff : r.bandwidth = -1 ↔ d.bandwidth = -1 := by
    rw [← hm.bandwidth, ← BitVec.toInt_inj, hone]
  dsimp only
  by_cases hunset : r.bandwidth = -1
  · rw [if_pos hunset, if_pos (hiff.1 hunset)]
    rfl
  · rw [if_neg hunset, if_neg (mt hiff.2 hunset)]
    exact hm.bandwidth

/-- A tool without profiles, with the default limits. -/
def plainTool : ToolEnv where
  strtod := fun _ => 0
  burstOk := fun _ => false
  loadProfile := fun _ => none
  byteLimit := 1024 * 1024
  slotLimit := 100
  redOk := true

end Dummynet.Tool
