import Dummynet.Lib.Buffer

/-!
# Redirections of a NAT instance

The message that configures a NAT instance has a `struct cfg_nat` and behind it its redirections,
each with its servers. `add_redir_spool_cfg` takes the numbers of redirections and servers from the
message, and never looks at the end of the buffer. Pointers have 64 bits.

## Main definitions

* `CfgRedir`, `CfgSpool`: a redirection and a server.
* `NatFault`: a read outside the buffer, an access outside `alink`, or the panic.
* `addRedirSpoolCfg`, `ipfwNatCfg`: the loops, and the handler.
* `RedirsFit`: the message has what its numbers promise.

## Main results

* `addRedir_ok`, `addRedir_fault`: what one redirection does.
* `natCfg_iff`: no message fault if and only if `RedirsFit`.
-/

namespace Ipfw

/-! ### Messages -/

/-- `NAT_BUF_LEN`. -/
def natBufLen : ℕ := 1024

/-- `sizeof(struct cfg_nat)`. -/
def sofNat : ℕ := 72

/-- `SOF_REDIR`. -/
def sofRedir : ℕ := 72

/-- `SOF_SPOOL`. -/
def sofSpool : ℕ := 24

/-- `REDIR_ADDR`. -/
def redirAddr : ℕ := 1

/-- `REDIR_PORT`. -/
def redirPort : ℕ := 2

/-- `REDIR_PROTO`. -/
def redirProto : ℕ := 4

/-- `struct cfg_spool`. -/
structure CfgSpool where
  addr : ℕ
  port : ℕ

/-- `struct cfg_redir`, with the pointers that `alink` points to. -/
structure CfgRedir where
  mode : ℕ
  laddr : ℕ
  paddr : ℕ
  raddr : ℕ
  lport : ℕ
  pport : ℕ
  rport : ℕ
  pportCnt : ℕ
  rportCnt : ℕ
  proto : ℕ
  spoolCnt : ℕ
  alink : List (Option ℕ) := []
  spoolChain : List CfgSpool := []

/-- The fields of a `struct cfg_redir`. -/
def redirOf (b : List (BitVec 8)) : CfgRedir where
  mode := Buffer.field b 16 2
  laddr := Buffer.field b 20 4
  paddr := Buffer.field b 24 4
  raddr := Buffer.field b 28 4
  lport := Buffer.field b 32 2
  pport := Buffer.field b 34 2
  rport := Buffer.field b 36 2
  pportCnt := Buffer.field b 38 2
  rportCnt := Buffer.field b 40 2
  proto := Buffer.field b 44 4
  spoolCnt := Buffer.field b 56 2

/-- The fields of a `struct cfg_spool`. -/
def spoolOf (b : List (BitVec 8)) : CfgSpool where
  addr := Buffer.field b 16 4
  port := Buffer.field b 20 2

/-! ### The calls of `libalias` -/

/-- `htons` of a number, as an `u_short`. -/
def htons (x : ℕ) : ℕ := x % 256 * 256 + x / 256 % 256

/-- The calls that return a link. -/
inductive LibCall
  | addr (laddr paddr : ℕ)
  | port (laddr lport raddr rport paddr pport proto : ℕ)
  | proto (laddr raddr paddr proto : ℕ)
deriving DecidableEq

/-- The calls up to now, with their results. -/
abbrev LibCalls := List (LibCall × Option ℕ)

/-- What ends the configuration. -/
inductive NatFault
  | outside
  | alink
  | panicked
deriving DecidableEq

/-- `libalias`: a result for each call, which may depend on the calls before. -/
abbrev LibAlias := LibCalls → LibCall → Option ℕ

/-- A step of the configuration. -/
abbrev NatStep (α : Type) := Except (NatFault × LibCalls) α

section

variable (lib : LibAlias)

/-- `r->alink[i] = x`. -/
def setAlink (calls : LibCalls) (r : CfgRedir) (i : ℕ) (x : Option ℕ) : NatStep CfgRedir :=
  if i < r.alink.length then .ok { r with alink := r.alink.set i x } else .error (.alink, calls)

/-- `r->alink[i]`. -/
def getAlink (calls : LibCalls) (r : CfgRedir) (i : ℕ) : NatStep (Option ℕ) :=
  match r.alink[i]? with
  | some x => .ok x
  | none => .error (.alink, calls)

/-- The call for the `i`-th port. -/
def portCall (r : CfgRedir) (i : ℕ) : LibCall :=
  let remotePortCopy := if r.rportCnt = 1 ∧ r.rport = 0 then 0 else (r.rport + i) % 2 ^ 16
  .port r.laddr (htons (r.lport + i)) r.raddr (htons remotePortCopy) r.paddr (htons (r.pport + i))
    r.proto

/-- The loop over the last `n` ports. -/
def portLoop : ℕ → ℕ → LibCalls → CfgRedir → NatStep (LibCalls × CfgRedir)
  | 0, _, calls, r => .ok (calls, r)
  | n + 1, i, calls, r => do
    let x := lib calls (portCall r i)
    let calls := calls ++ [(portCall r i, x)]
    let r ← setAlink calls r i x
    if x = none then
      let r ← setAlink calls r 0 none
      return (calls, r)
    portLoop n (i + 1) calls r

/-- One call, whose result is the first link. -/
def oneLink (c : LibCall) (calls : LibCalls) (r : CfgRedir) : NatStep (LibCalls × CfgRedir) := do
  let x := lib calls c
  let calls := calls ++ [(c, x)]
  let r ← setAlink calls r 0 x
  return (calls, r)

/-- The switch over the modes. -/
def redirect (calls : LibCalls) (r : CfgRedir) : NatStep (LibCalls × CfgRedir) :=
  if r.mode = redirAddr then oneLink lib (.addr r.laddr r.paddr) calls r
  else if r.mode = redirPort then portLoop lib r.pportCnt 0 calls r
  else if r.mode = redirProto then oneLink lib (.proto r.laddr r.raddr r.paddr r.proto) calls r
  else .ok (calls, r)

/-- The loop over the last `n` servers. -/
def spoolLoop (buf : List (BitVec 8)) :
    ℕ → ℕ → LibCalls → CfgRedir → NatStep (ℕ × CfgRedir)
  | 0, off, _, r => .ok (off, r)
  | n + 1, off, calls, r =>
    match Buffer.slice buf off sofSpool with
    | none => .error (.outside, calls)
    | some b => do
      let _ ← getAlink calls r 0
      spoolLoop buf n (off + sofSpool) calls { r with spoolChain := spoolOf b :: r.spoolChain }

/-- One redirection, which stands at `off`. -/
def addRedir (buf : List (BitVec 8)) (off : ℕ) (calls : LibCalls) :
    NatStep (ℕ × LibCalls × CfgRedir) :=
  match Buffer.slice buf off sofRedir with
  | none => .error (.outside, calls)
  | some b => do
    let r := redirOf b
    let r := { r with alink := List.replicate r.pportCnt none }
    let (calls, r) ← redirect lib calls r
    let first ← getAlink calls r 0
    if first = none then .error (.panicked, calls)
    else
      let (off, r) ← spoolLoop buf r.spoolCnt (off + sofRedir) calls r
      return (off, calls, r)

/-- The loop over the last `n` redirections. -/
def addRedirSpoolCfg (buf : List (BitVec 8)) :
    ℕ → ℕ → LibCalls → List CfgRedir → NatStep (LibCalls × List CfgRedir)
  | 0, _, calls, chain => .ok (calls, chain)
  | n + 1, off, calls, chain => do
    let (off, calls, r) ← addRedir lib buf off calls
    addRedirSpoolCfg buf n off calls (r :: chain)

/-- The buffer of `NAT_BUF_LEN` bytes with the message. A message without a whole `struct cfg_nat`
is not copied, and the error is ignored. -/
def natBuf (msg : List (BitVec 8)) : List (BitVec 8) :=
  let copied := if msg.length < sofNat then [] else msg.take natBufLen
  copied ++ List.replicate (natBufLen - copied.length) 0

/-- `redir_cnt` of the message, as the number of rounds of the loop. -/
def redirCnt (msg : List (BitVec 8)) : ℕ :=
  (BitVec.ofNat 32 (Buffer.field (natBuf msg) 56 4)).toInt.toNat

/-- The redirections that `ipfw_nat_cfg` configures. -/
def ipfwNatCfg (msg : List (BitVec 8)) : NatStep (LibCalls × List CfgRedir) :=
  addRedirSpoolCfg lib ((natBuf msg).drop sofNat) (redirCnt msg) 0 [] []

end

/-- The configuration ends, or it panics after a call that has returned no link. -/
def NoMessageFault : NatStep (LibCalls × List CfgRedir) → Prop
  | .ok _ => True
  | .error (f, calls) => f = .panicked ∧ ∃ c ∈ calls, c.2 = none

instance (x : NatStep (LibCalls × List CfgRedir)) : Decidable (NoMessageFault x) :=
  match x with
  | .ok _ => inferInstanceAs (Decidable True)
  | .error (f, calls) =>
    inferInstanceAs (Decidable (f = .panicked ∧ ∃ c ∈ calls, c.2 = none))

/-- The next `n` redirections are in the buffer, with a mode that exists, at least one public port
and all their servers. -/
def RedirsFit (buf : List (BitVec 8)) : ℕ → ℕ → Prop
  | 0, _ => True
  | n + 1, off =>
    let r := redirOf ((buf.drop off).take sofRedir)
    (r.mode = redirAddr ∨ r.mode = redirPort ∨ r.mode = redirProto) ∧ 0 < r.pportCnt ∧
      off + sofRedir + r.spoolCnt * sofSpool ≤ buf.length ∧
      RedirsFit buf n (off + sofRedir + r.spoolCnt * sofSpool)

/-! ### One redirection -/

section Proofs

variable {lib : LibAlias} {calls : LibCalls} {buf : List (BitVec 8)} {off : ℕ} {r : CfgRedir}

/-- The results are the ones of `libalias`. -/
def FromLib (lib : LibAlias) (calls : LibCalls) : Prop := ∀ c ∈ calls, ∃ h, c.2 = lib h c.1

theorem FromLib.snoc (h : FromLib lib calls) (c : LibCall) :
    FromLib lib (calls ++ [(c, lib calls c)]) := by
  intro d hd
  rcases List.mem_append.1 hd with hd | hd
  · exact h d hd
  · obtain rfl := List.mem_singleton.1 hd
    exact ⟨calls, rfl⟩

/-- The first link of a redirection; it is null only after a call that has failed. -/
structure RedirLinked (lib : LibAlias) (r r' : CfgRedir) (calls' : LibCalls) : Prop where
  length_eq : r'.alink.length = r.alink.length
  spoolCnt_eq : r'.spoolCnt = r.spoolCnt
  fromLib : FromLib lib calls'
  failed : r'.alink[0]? = some none → ∃ c ∈ calls', c.2 = none

theorem setAlink_ok {i : ℕ} (h : i < r.alink.length) (x : Option ℕ) :
    setAlink calls r i x = .ok { r with alink := r.alink.set i x } := if_pos h

/-- The loop over the ports. -/
theorem portLoop_linked (n i : ℕ) (hn : i + n = r.alink.length) (hcalls : FromLib lib calls)
    (hi : 0 < i → r.alink[0]? = some none → ∃ c ∈ calls, c.2 = none) (hpos : 0 < i + n) :
    ∃ calls' r', portLoop lib n i calls r = .ok (calls', r') ∧ RedirLinked lib r r' calls' := by
  induction n generalizing i calls r with
  | zero => exact ⟨calls, r, rfl, rfl, rfl, hcalls, hi (by omega)⟩
  | succ n ih =>
    have hlt : i < r.alink.length := by omega
    have hsnoc := hcalls.snoc (portCall r i)
    rw [portLoop]
    simp only [setAlink_ok hlt, bind, Except.bind]
    cases hx : lib calls (portCall r i) with
    | none =>
      rw [hx] at hsnoc
      rw [if_pos rfl, setAlink_ok (by simp; omega)]
      exact ⟨_, _, rfl, by simp, rfl, hsnoc, fun _ => ⟨_, List.mem_append_right _
        (List.mem_singleton.2 rfl), rfl⟩⟩
    | some x =>
      rw [hx] at hsnoc
      rw [if_neg (by simp)]
      obtain ⟨calls', r', hrun, hlink⟩ := ih (r := { r with alink := r.alink.set i (some x) })
        (i + 1) (by simp; omega) hsnoc (fun _ h0 => by
          rcases Nat.eq_zero_or_pos i with rfl | hpos
          · simp [hlt] at h0
          · rw [List.getElem?_set_ne hpos.ne'] at h0
            obtain ⟨c, hc, hnone⟩ := hi hpos h0
            exact ⟨c, List.mem_append_left _ hc, hnone⟩) (by omega)
      exact ⟨calls', r', hrun, hlink.length_eq.trans (by simp), hlink.spoolCnt_eq, hlink.fromLib,
        hlink.failed⟩

theorem oneLink_linked (hpos : 0 < r.alink.length) (hcalls : FromLib lib calls) (c : LibCall) :
    ∃ calls' r', oneLink lib c calls r = .ok (calls', r') ∧ RedirLinked lib r r' calls' := by
  refine ⟨calls ++ [(c, lib calls c)], { r with alink := r.alink.set 0 (lib calls c) }, ?_, ?_⟩
  · simp only [oneLink, setAlink_ok hpos, bind, Except.bind]
    rfl
  · refine ⟨by simp, rfl, hcalls.snoc c, fun h => ⟨_, List.mem_append_right _
      (List.mem_singleton.2 rfl), ?_⟩⟩
    simpa [List.getElem?_set, hpos] using h

/-- The mode exists. -/
def KnownMode (r : CfgRedir) : Prop :=
  r.mode = redirAddr ∨ r.mode = redirPort ∨ r.mode = redirProto

/-- The redirection gets its links. -/
theorem redirect_linked (hmode : KnownMode r) (hlen : r.alink.length = r.pportCnt)
    (hpos : 0 < r.pportCnt) (hcalls : FromLib lib calls) :
    ∃ calls' r', redirect lib calls r = .ok (calls', r') ∧ RedirLinked lib r r' calls' := by
  rw [redirect]
  split_ifs with haddr hport hproto
  · exact oneLink_linked (by omega) hcalls _
  · exact portLoop_linked r.pportCnt 0 (by omega) hcalls (fun h => absurd h (by omega)) (by omega)
  · exact oneLink_linked (by omega) hcalls _
  · exact absurd hmode (by rw [KnownMode, not_or, not_or]; exact ⟨haddr, hport, hproto⟩)

/-- A redirection without public ports, or with a mode that does not exist, gets none. -/
theorem redirect_unlinked (h : ¬ KnownMode r ∨ r.pportCnt = 0)
    (hlen : r.alink = List.replicate r.pportCnt none) (hcalls : FromLib lib calls) :
    redirect lib calls r = .ok (calls, r) ∨
      ∃ calls', redirect lib calls r = .error (.alink, calls') ∧ FromLib lib calls' := by
  have hone : r.pportCnt = 0 → ∀ c, ∃ calls', oneLink lib c calls r = .error (.alink, calls') ∧
      FromLib lib calls' := fun h0 c => by
    refine ⟨calls ++ [(c, lib calls c)], ?_, hcalls.snoc c⟩
    simp only [oneLink, setAlink, hlen, h0, List.replicate_zero, List.length_nil, lt_irrefl,
      if_false, bind, Except.bind]
  rw [redirect]
  split_ifs with haddr hport hproto
  · exact .inr (hone (h.resolve_left (not_not.2 (.inl haddr))) _)
  · rw [h.resolve_left (not_not.2 (.inr (.inl hport)))]
    exact .inl rfl
  · exact .inr (hone (h.resolve_left (not_not.2 (.inr (.inr hproto)))) _)
  · exact .inl rfl

/-- The loop over the servers. -/
theorem spoolLoop_eq (calls : LibCalls) (n off : ℕ) {x : Option ℕ} (hx : r.alink[0]? = some x) :
    (off + n * sofSpool ≤ buf.length →
      ∃ r', spoolLoop buf n off calls r = .ok (off + n * sofSpool, r')) ∧
    (buf.length < off + n * sofSpool → off ≤ buf.length →
      spoolLoop buf n off calls r = .error (.outside, calls)) := by
  induction n generalizing off r with
  | zero => exact ⟨fun _ => ⟨r, by simp [spoolLoop]⟩, fun h h' => absurd h (by omega)⟩
  | succ n ih =>
    have hmul : (n + 1) * sofSpool = sofSpool + n * sofSpool := by ring
    rw [hmul, ← Nat.add_assoc]
    by_cases hle : off + sofSpool ≤ buf.length
    · have hslice : Buffer.slice buf off sofSpool = some ((buf.drop off).take sofSpool) :=
        if_pos hle
      have hget : getAlink calls r 0 = .ok x := by rw [getAlink, hx]
      have hnext := ih (off + sofSpool) (r := { r with
        spoolChain := spoolOf ((buf.drop off).take sofSpool) :: r.spoolChain }) hx
      rw [spoolLoop, hslice]
      simp only [hget, bind, Except.bind]
      exact ⟨hnext.1, fun h _ => hnext.2 h hle⟩
    · have hslice : Buffer.slice buf off sofSpool = none := if_neg hle
      rw [spoolLoop, hslice]
      exact ⟨fun h => absurd h (by omega), fun _ _ => rfl⟩

/-- What `RedirsFit` says about one redirection. -/
def RedirFits (buf : List (BitVec 8)) (off : ℕ) : Prop :=
  KnownMode (redirOf ((buf.drop off).take sofRedir)) ∧
    0 < (redirOf ((buf.drop off).take sofRedir)).pportCnt ∧
    off + sofRedir + (redirOf ((buf.drop off).take sofRedir)).spoolCnt * sofSpool ≤ buf.length

/-- A redirection that fits: it is configured, or a call has failed. -/
theorem addRedir_ok (hfit : RedirFits buf off) (hcalls : FromLib lib calls) :
    (∃ calls' r', addRedir lib buf off calls = .ok (off + sofRedir +
        (redirOf ((buf.drop off).take sofRedir)).spoolCnt * sofSpool, calls', r') ∧
      FromLib lib calls') ∨
    ∃ calls', addRedir lib buf off calls = .error (.panicked, calls') ∧ FromLib lib calls' ∧
      ∃ c ∈ calls', c.2 = none := by
  obtain ⟨hmode, hpos, hroom⟩ := hfit
  have hslice : Buffer.slice buf off sofRedir = some ((buf.drop off).take sofRedir) :=
    if_pos (by omega)
  generalize (buf.drop off).take sofRedir = b at hmode hpos hroom hslice
  obtain ⟨calls', r', hrun, hlink⟩ := redirect_linked
    (r := { redirOf b with alink := List.replicate (redirOf b).pportCnt none })
    hmode (by simp) hpos hcalls
  rw [addRedir, hslice]
  simp only [hrun, bind, Except.bind]
  have hlen : 0 < r'.alink.length := by rw [hlink.length_eq, List.length_replicate]; exact hpos
  have hget : getAlink calls' r' 0 = .ok r'.alink[0] := by
    rw [getAlink, List.getElem?_eq_getElem hlen]
  rw [hget]
  simp only
  by_cases hnone : r'.alink[0] = none
  · rw [if_pos hnone]
    exact .inr ⟨calls', rfl, hlink.fromLib, hlink.failed (by
      rw [List.getElem?_eq_getElem hlen, hnone])⟩
  · obtain ⟨r'', hspool⟩ := (spoolLoop_eq calls' r'.spoolCnt (off + sofRedir)
      (List.getElem?_eq_getElem hlen)).1 (by rw [hlink.spoolCnt_eq]; exact hroom)
    rw [if_neg hnone, hspool, hlink.spoolCnt_eq]
    exact .inl ⟨calls', r'', rfl, hlink.fromLib⟩

/-- A redirection that does not fit ends the configuration. -/
theorem addRedir_fault (hfit : ¬ RedirFits buf off) (hcalls : FromLib lib calls) :
    ∃ f calls', addRedir lib buf off calls = .error (f, calls') ∧ FromLib lib calls' := by
  by_cases hle : off + sofRedir ≤ buf.length
  · have hslice : Buffer.slice buf off sofRedir = some ((buf.drop off).take sofRedir) := if_pos hle
    rw [RedirFits] at hfit
    generalize (buf.drop off).take sofRedir = b at hfit hslice
    rw [addRedir, hslice]
    by_cases hlink : KnownMode (redirOf b) ∧ 0 < (redirOf b).pportCnt
    · obtain ⟨calls', r', hrun, hlink'⟩ := redirect_linked
        (r := { redirOf b with alink := List.replicate (redirOf b).pportCnt none })
        hlink.1 (by simp) hlink.2 hcalls
      have hlen : 0 < r'.alink.length := by
        rw [hlink'.length_eq, List.length_replicate]
        exact hlink.2
      have hget : getAlink calls' r' 0 = .ok r'.alink[0] := by
        rw [getAlink, List.getElem?_eq_getElem hlen]
      simp only [hrun, hget, bind, Except.bind]
      by_cases hnone : r'.alink[0] = none
      · rw [if_pos hnone]
        exact ⟨.panicked, calls', rfl, hlink'.fromLib⟩
      · have hspool := (spoolLoop_eq calls' r'.spoolCnt (off + sofRedir)
          (List.getElem?_eq_getElem hlen)).2 (by
            rw [hlink'.spoolCnt_eq]
            exact not_le.1 fun hroom => hfit ⟨hlink.1, hlink.2, hroom⟩) hle
        rw [if_neg hnone, hspool]
        exact ⟨.outside, calls', rfl, hlink'.fromLib⟩
    · rw [not_and_or, not_lt, Nat.le_zero] at hlink
      rcases redirect_unlinked (r := { redirOf b with
        alink := List.replicate (redirOf b).pportCnt none }) hlink rfl hcalls with hrun | hrun
      · simp only [hrun, bind, Except.bind, getAlink]
        rcases Nat.eq_zero_or_pos (redirOf b).pportCnt with h0 | hpos
        · simp only [h0, List.replicate_zero, List.getElem?_nil]
          exact ⟨.alink, calls, rfl, hcalls⟩
        · rw [List.getElem?_replicate, if_pos hpos]
          exact ⟨.panicked, calls, rfl, hcalls⟩
      · obtain ⟨calls', hrun, hlib⟩ := hrun
        simp only [hrun, bind, Except.bind]
        exact ⟨.alink, calls', rfl, hlib⟩
  · have hslice : Buffer.slice buf off sofRedir = none := if_neg hle
    rw [addRedir, hslice]
    exact ⟨.outside, calls, rfl, hcalls⟩

/-! ### The whole message -/

/-- A message that fits makes no fault. -/
theorem addRedirSpoolCfg_ok (n : ℕ) {chain : List CfgRedir} (hfit : RedirsFit buf n off)
    (hcalls : FromLib lib calls) : NoMessageFault (addRedirSpoolCfg lib buf n off calls chain) := by
  induction n generalizing off calls chain with
  | zero => exact trivial
  | succ n ih =>
    obtain ⟨hmode, hpos, hroom, hrest⟩ := hfit
    rw [addRedirSpoolCfg]
    rcases addRedir_ok ⟨hmode, hpos, hroom⟩ hcalls with
      ⟨calls', r', hrun, hlib⟩ | ⟨calls', hrun, -, hc⟩
    · simp only [hrun, bind, Except.bind]
      exact ih hrest hlib
    · simp only [hrun, bind, Except.bind]
      exact ⟨rfl, hc⟩

/-- If every call returns a link, then only a message that fits makes no fault. -/
theorem redirsFit_of_ok (n : ℕ) {chain : List CfgRedir} (hlinks : ∀ h c, lib h c ≠ none)
    (hcalls : FromLib lib calls)
    (h : NoMessageFault (addRedirSpoolCfg lib buf n off calls chain)) : RedirsFit buf n off := by
  have hnone : ∀ {calls : LibCalls}, FromLib lib calls → ¬ ∃ c ∈ calls, c.2 = none := by
    rintro calls hlib ⟨c, hc, hcnone⟩
    obtain ⟨h, hres⟩ := hlib c hc
    exact hlinks h c.1 (hres ▸ hcnone)
  induction n generalizing off calls chain with
  | zero => exact trivial
  | succ n ih =>
    rw [addRedirSpoolCfg] at h
    by_cases hfit : RedirFits buf off
    · rcases addRedir_ok hfit hcalls with ⟨calls', r', hrun, hlib⟩ | ⟨calls', hrun, hlib, hc⟩
      · simp only [hrun, bind, Except.bind] at h
        exact ⟨hfit.1, hfit.2.1, hfit.2.2, ih hlib h⟩
      · exact absurd hc (hnone hlib)
    · obtain ⟨f, calls', hrun, hlib⟩ := addRedir_fault hfit hcalls
      simp only [hrun, bind, Except.bind] at h
      exact absurd h.2 (hnone hlib)

/-- A message that makes no fault has what its numbers promise. -/
theorem redirsFit_of_natCfg {msg : List (BitVec 8)}
    (h : ∀ lib, NoMessageFault (ipfwNatCfg lib msg)) :
    RedirsFit ((natBuf msg).drop sofNat) (redirCnt msg) 0 :=
  redirsFit_of_ok (redirCnt msg) (fun _ _ => Option.some_ne_none 0)
    (fun _ hc => absurd hc List.not_mem_nil) (h fun _ _ => some 0)

/-- **The configuration of redirections** makes no fault by the message, whatever `libalias`
returns, if and only if the message has what its numbers promise. -/
theorem natCfg_iff (msg : List (BitVec 8)) :
    (∀ lib, NoMessageFault (ipfwNatCfg lib msg)) ↔
      RedirsFit ((natBuf msg).drop sofNat) (redirCnt msg) 0 := by
  refine ⟨redirsFit_of_natCfg, fun h lib => ?_⟩
  exact addRedirSpoolCfg_ok (redirCnt msg) h fun _ hc => absurd hc List.not_mem_nil

/-- A message with one redirection that is all zero. -/
def exampleMsg : List (BitVec 8) := List.replicate 56 0 ++ [1] ++ List.replicate 87 0

set_option maxRecDepth 8192 in
/-- Its redirection has no public port, and the first link is not in its array. -/
theorem not_natCfg : ¬ ∀ lib, NoMessageFault (ipfwNatCfg lib exampleMsg) := by
  intro h
  have hcnt : redirCnt exampleMsg = 1 := by decide +kernel
  have hfit := redirsFit_of_natCfg h
  rw [hcnt] at hfit
  have hzero :
      (redirOf ((((natBuf exampleMsg).drop sofNat).drop 0).take sofRedir)).pportCnt = 0 := by
    decide +kernel
  exact absurd hfit.2.1 (by rw [hzero]; exact lt_irrefl 0)

end Proofs

end Ipfw
