import Dummynet.Ipfw.State

/-!
# The walk over the IPv6 headers

The loop at the start of `ipfw_chk` that looks for the upper layer protocol of an IPv6 packet. Each
header is made contiguous before it is read. An extension header is skipped, any other one ends the
loop.

## Main definitions

* `pullupTo`: the macro `PULLUP_TO`.
* `walkStep`: one round of the loop.
* `walk6`: several of them.

## Main results

* `Packet6.walk_ok`: the loop ends, and reads headers only within the packet.
-/

namespace Ipfw

/-! ### The loop -/

/-- An IPv6 packet: the bytes of its mbufs, of which the first `mLen` are contiguous. Its length, an
`int`, is not within a few headers of 2^31. -/
structure Packet6 where
  byte : ℕ → BitVec 8
  len : ℕ
  mLen : ℕ
  hdr_le : 40 ≤ len
  mLen_le : mLen ≤ len
  len_le : len + 4096 ≤ 2 ^ 31

/-- The variables of the loop. There are `mLen` contiguous bytes. -/
structure Hdr6 where
  mLen : ℕ
  hlen : BitVec 32
  proto : BitVec 8
  extHd : BitVec 16
  offset : BitVec 16
  srcPort : BitVec 16
  dstPort : BitVec 16
  icmp6Type : BitVec 8
  flags : BitVec 8
  extra : BitVec 32
  deriving DecidableEq

/-- How a round ends: `ulp` is still `NULL`, or it is not, or the function returns. With `fault` a
header is read that is not contiguous. -/
inductive Walk6
  | loop (s : Hdr6)
  | done (s : Hdr6)
  | deny
  | pullupFailed
  | fault
  deriving DecidableEq

/-- `EXT_FRAGMENT`. -/
def extFragment : BitVec 16 := 0x1#16

/-- `EXT_HOPOPTS`. -/
def extHopopts : BitVec 16 := 0x2#16

/-- `EXT_ROUTING`. -/
def extRouting : BitVec 16 := 0x4#16

/-- `EXT_AH`. -/
def extAh : BitVec 16 := 0x8#16

/-- `EXT_ESP`. -/
def extEsp : BitVec 16 := 0x10#16

/-- `EXT_DSTOPTS`. -/
def extDstopts : BitVec 16 := 0x20#16

/-- `EXT_RTHDR0`. -/
def extRthdr0 : BitVec 16 := 0x40#16

/-- `EXT_RTHDR2`. -/
def extRthdr2 : BitVec 16 := 0x80#16

/-- `PULLUP_TO`, for a header of `n` bytes at `hlen`, and what is done with its bytes. `m_pullup`
gets the number of contiguous bytes and the one that there must be, and tells how many there are. -/
def pullupTo (P : Packet6) (pull : ℕ → ℕ → Option ℕ) (s : Hdr6) (n : ℕ)
    (k : Hdr6 → (ℕ → BitVec 8) → Walk6) : Walk6 :=
  let x := (s.hlen + BitVec.ofNat 32 n).toInt
  let read := fun s : Hdr6 =>
    if s.hlen.toNat + n ≤ s.mLen then k s fun i => P.byte (s.hlen.toNat + i) else .fault
  if s.mLen < x then
    match pull s.mLen x.toNat with
    | some m => read { s with mLen := m }
    | none => .pullupFailed
  else read s

/-- `IPPROTO_HOPOPTS` and `IPPROTO_DSTOPTS`. -/
def walkOpts (ext : BitVec 16) (s : Hdr6) (h : ℕ → BitVec 8) : Walk6 :=
  .loop { s with
    extHd := s.extHd ||| ext
    hlen := s.hlen + ((h 1).setWidth 32 + 1) <<< 3
    proto := h 0 }

/-- `IPPROTO_ROUTING`. -/
def walkRouting (deny : Bool) (s : Hdr6) (h : ℕ → BitVec 8) : Walk6 :=
  let next := fun ext => Walk6.loop { s with
    extHd := s.extHd ||| ext ||| extRouting
    hlen := s.hlen + ((h 1).setWidth 32 + 1) <<< 3
    proto := h 0 }
  if h 2 = 0 then next extRthdr0
  else if h 2 = 2 then next extRthdr2
  else if deny then .deny
  else next 0

/-- `IPPROTO_FRAGMENT`. The offset is taken in the byte order of the packet. -/
def walkFragment (deny : Bool) (s : Hdr6) (h : ℕ → BitVec 8) : Walk6 :=
  let offlg : BitVec 16 := h 2 ++ h 3
  let offset := offlg &&& 0xfff8 ||| offlg &&& 0x0001
  let s := { s with
    extHd := s.extHd ||| extFragment
    hlen := s.hlen + 8
    proto := h 0
    offset := offset }
  if offset = 0 then if deny then .deny else .done s
  else .loop { s with extra := h 4 ++ h 5 ++ h 6 ++ h 7 }

/-- `IPPROTO_AH`. -/
def walkAh (s : Hdr6) (h : ℕ → BitVec 8) : Walk6 :=
  .loop { s with
    extHd := s.extHd ||| extAh
    hlen := s.hlen + ((h 1).setWidth 32 + 2) <<< 2
    proto := h 0 }

/-- `IPPROTO_CARP`. -/
def walkCarp (s : Hdr6) (h : ℕ → BitVec 8) : Walk6 :=
  if h 0 >>> 4 ≠ 2 then .deny
  else if h 0 &&& 15 ≠ 1 then .deny
  else .done s

/-- One round of the loop. The sizes of `struct pim` and `struct carp_header` are those of
`missing.h`. -/
def walkStep (P : Packet6) (pull : ℕ → ℕ → Option ℕ) (deny : Bool) (s : Hdr6) : Walk6 :=
  match s.proto.toNat with
  | 58 => pullupTo P pull s 8 fun s h => .done { s with icmp6Type := h 0 }
  | 6 => pullupTo P pull s 20 fun s h =>
    .done { s with dstPort := h 2 ++ h 3, srcPort := h 0 ++ h 1, flags := h 13 }
  | 132 => pullupTo P pull s 12 fun s h =>
    .done { s with srcPort := h 0 ++ h 1, dstPort := h 2 ++ h 3 }
  | 17 => pullupTo P pull s 8 fun s h =>
    .done { s with dstPort := h 2 ++ h 3, srcPort := h 0 ++ h 1 }
  | 0 => pullupTo P pull s 2 (walkOpts extHopopts)
  | 43 => pullupTo P pull s 4 (walkRouting deny)
  | 44 => pullupTo P pull s 8 (walkFragment deny)
  | 60 => pullupTo P pull s 2 (walkOpts extDstopts)
  | 51 => pullupTo P pull s 2 walkAh
  | 50 => pullupTo P pull s 4 fun s _ => .done { s with extHd := s.extHd ||| extEsp }
  | 59 => .done s
  | 89 => pullupTo P pull s 2 fun s _ => .done s
  | 103 => pullupTo P pull s 4 fun s _ => .done s
  | 112 => pullupTo P pull s 1 walkCarp
  | 41 => pullupTo P pull s 40 fun s _ => .done s
  | 4 => pullupTo P pull s 20 fun s _ => .done s
  | _ => if deny then .deny else pullupTo P pull s 2 fun s _ => .done s

/-- The loop, for at most `n` rounds. -/
def walk6 (P : Packet6) (pull : ℕ → ℕ → Option ℕ) (deny : Bool) : ℕ → Hdr6 → Option Walk6
  | 0, _ => none
  | n + 1, s =>
    match walkStep P pull deny s with
    | .loop s => walk6 P pull deny n s
    | r => some r

/-- The variables before the loop. -/
def Packet6.start (P : Packet6) : Hdr6 where
  mLen := P.mLen
  hlen := 40
  proto := P.byte 6
  extHd := 0
  offset := 0
  srcPort := 0
  dstPort := 0
  icmp6Type := 0
  flags := 0
  extra := 0

/-! ### What the loop guarantees -/

/-- `m_pullup` makes enough bytes contiguous, or fails. It fails if the packet is shorter. -/
def PullupOk (len : ℕ) (pull : ℕ → ℕ → Option ℕ) : Prop :=
  ∀ m x m', pull m x = some m' → x ≤ m' ∧ m' ≤ len

/-- The variables at the start of some round. -/
inductive Packet6.Reach (P : Packet6) (pull : ℕ → ℕ → Option ℕ) (deny : Bool) : Hdr6 → Prop
  | start : P.Reach pull deny P.start
  | step {s s' : Hdr6} : P.Reach pull deny s → walkStep P pull deny s = .loop s' →
    P.Reach pull deny s'

/-- What the loop guarantees. It ends after at most one round for every 8 bytes, `hlen` grows with
every header that is skipped, and the headers that are read end within the packet. -/
structure Packet6.WalkOk (P : Packet6) (pull : ℕ → ℕ → Option ℕ) (deny : Bool) : Prop where
  ends : ∀ n, P.len / 8 < n → ∃ r, walk6 P pull deny n P.start = some r ∧ r ≠ .fault
  grows : ∀ s s', P.Reach pull deny s → walkStep P pull deny s = .loop s' →
    s.hlen.toNat + 8 ≤ s'.hlen.toNat
  inside : ∀ s, P.Reach pull deny s → walkStep P pull deny s ≠ .fault ∧
    ∀ n ≤ 40, (pullupTo P pull s n fun s _ => .done s) ≠ .pullupFailed → s.hlen.toNat + n ≤ P.len

variable {P : Packet6} {pull : ℕ → ℕ → Option ℕ} {deny : Bool} {s s' : Hdr6} {n : ℕ}
  {k : Hdr6 → (ℕ → BitVec 8) → Walk6}

/-- The invariant of the loop. An extension header is not longer than 2048 bytes. -/
structure Hdr6.Within (P : Packet6) (s : Hdr6) : Prop where
  mLen : s.mLen ≤ P.len
  hlen : s.hlen.toNat ≤ P.len + 2048

/-- **`PULLUP_TO`** fails, or the header is contiguous and within the packet. -/
theorem pullupTo_spec (hpull : PullupOk P.len pull) (h : s.Within P) (hn : n ≤ 40) :
    pullupTo P pull s n k = .pullupFailed ∨ ∃ m, s.hlen.toNat + n ≤ m ∧ m ≤ P.len ∧
      pullupTo P pull s n k = k { s with mLen := m } fun i => P.byte (s.hlen.toNat + i) := by
  have hlen := P.len_le
  have hhlen := h.hlen
  have hx : (s.hlen + BitVec.ofNat 32 n).toNat = s.hlen.toNat + n := by
    rw [BitVec.toNat_add, BitVec.toNat_ofNat, Nat.mod_eq_of_lt (by omega),
      Nat.mod_eq_of_lt (by omega)]
  have hint : (s.hlen + BitVec.ofNat 32 n).toInt = (s.hlen.toNat + n : ℕ) := by
    rw [BitVec.toInt_eq_toNat_of_lt (by omega), hx]
  unfold pullupTo
  dsimp only
  rw [hint, Int.toNat_natCast]
  split_ifs with hlt hle
  · cases hp : pull s.mLen (s.hlen.toNat + n) with
    | none => exact .inl rfl
    | some m =>
      obtain ⟨hm, hm'⟩ := hpull _ _ m hp
      exact .inr ⟨m, hm, hm', if_pos hm⟩
  · exact .inr ⟨s.mLen, hle, h.mLen, rfl⟩
  · exact absurd (Int.ofNat_le.1 (Int.not_lt.1 hlt)) hle

/-- What a round may do with the variables. -/
def Walk6.Advances (P : Packet6) (s : Hdr6) : Walk6 → Prop
  | .loop s' => s.hlen.toNat < P.len ∧ s.hlen.toNat + 8 ≤ s'.hlen.toNat ∧ s'.Within P
  | .fault => False
  | _ => True

theorem pullupTo_advances (hpull : PullupOk P.len pull) (h : s.Within P) (hn : n ≤ 40)
    (hk : ∀ m b, s.hlen.toNat + n ≤ P.len → m ≤ P.len →
      (k { s with mLen := m } b).Advances P s) :
    (pullupTo P pull s n k).Advances P s := by
  obtain heq | ⟨m, hm, hm', heq⟩ := @pullupTo_spec P pull s n k hpull h hn
  · rw [heq]
    trivial
  · rw [heq]
    exact hk m _ (Nat.le_trans hm hm') hm'

/-- A header of at most 2048 bytes is skipped. -/
theorem advances_skip {size : BitVec 32} (hlt : s.hlen.toNat < P.len) (h8 : 8 ≤ size.toNat)
    (hsize : size.toNat ≤ 2048) (hlen : s'.hlen = s.hlen + size) (hm : s'.mLen ≤ P.len) :
    (Walk6.loop s').Advances P s := by
  have hP := P.len_le
  have heq : s'.hlen.toNat = s.hlen.toNat + size.toNat := by
    rw [hlen, BitVec.toNat_add, Nat.mod_eq_of_lt (by omega)]
  exact ⟨hlt, by omega, hm, by omega⟩

/-- The length of options and routing headers, in units of 8 bytes. -/
theorem optsSize_spec (b : BitVec 8) : 8 ≤ ((b.setWidth 32 + 1) <<< 3).toNat ∧
    ((b.setWidth 32 + 1) <<< 3).toNat ≤ 2048 := by
  have hb := b.isLt
  have h1 : (1 : BitVec 32).toNat = 1 := rfl
  have hsum : (b.setWidth 32 + 1).toNat = b.toNat + 1 := by
    rw [BitVec.toNat_add, BitVec.toNat_setWidth, h1]
    omega
  rw [BitVec.toNat_shiftLeft, hsum, Nat.shiftLeft_eq]
  omega

/-- The length of an authentication header, in units of 4 bytes. -/
theorem ahSize_spec (b : BitVec 8) : 8 ≤ ((b.setWidth 32 + 2) <<< 2).toNat ∧
    ((b.setWidth 32 + 2) <<< 2).toNat ≤ 2048 := by
  have hb := b.isLt
  have h2 : (2 : BitVec 32).toNat = 2 := rfl
  have hsum : (b.setWidth 32 + 2).toNat = b.toNat + 2 := by
    rw [BitVec.toNat_add, BitVec.toNat_setWidth, h2]
    omega
  rw [BitVec.toNat_shiftLeft, hsum, Nat.shiftLeft_eq]
  omega

theorem walkOpts_advances {ext : BitVec 16} {m : ℕ} {b : ℕ → BitVec 8} (hlt : s.hlen.toNat < P.len)
    (hm : m ≤ P.len) : (walkOpts ext { s with mLen := m } b).Advances P s :=
  advances_skip hlt (optsSize_spec _).1 (optsSize_spec _).2 rfl hm

theorem walkRouting_advances {m : ℕ} {b : ℕ → BitVec 8} (hlt : s.hlen.toNat < P.len)
    (hm : m ≤ P.len) : (walkRouting deny { s with mLen := m } b).Advances P s := by
  unfold walkRouting
  dsimp only
  split_ifs
  · exact advances_skip hlt (optsSize_spec _).1 (optsSize_spec _).2 rfl hm
  · exact advances_skip hlt (optsSize_spec _).1 (optsSize_spec _).2 rfl hm
  · trivial
  · exact advances_skip hlt (optsSize_spec _).1 (optsSize_spec _).2 rfl hm

theorem walkFragment_advances {m : ℕ} {b : ℕ → BitVec 8} (hlt : s.hlen.toNat < P.len)
    (hm : m ≤ P.len) : (walkFragment deny { s with mLen := m } b).Advances P s := by
  unfold walkFragment
  dsimp only
  split_ifs
  · trivial
  · trivial
  · exact @advances_skip P s _ 8 hlt (by decide) (by decide) rfl hm

theorem walkCarp_advances {m : ℕ} {b : ℕ → BitVec 8} :
    (walkCarp { s with mLen := m } b).Advances P s := by
  unfold walkCarp
  split_ifs <;> trivial

/-- **A round of the loop** ends it, or skips a header. -/
theorem walkStep_advances (hpull : PullupOk P.len pull) (h : s.Within P) :
    (walkStep P pull deny s).Advances P s := by
  unfold walkStep
  split
  case h_5 | h_8 =>
    exact pullupTo_advances hpull h (by decide) fun m b hle hm => walkOpts_advances (by omega) hm
  case h_6 =>
    exact pullupTo_advances hpull h (by decide) fun m b hle hm => walkRouting_advances (by omega) hm
  case h_7 =>
    exact pullupTo_advances hpull h (by decide) fun m b hle hm =>
      walkFragment_advances (by omega) hm
  case h_9 =>
    exact pullupTo_advances hpull h (by decide) fun m b hle hm =>
      advances_skip (by omega) (ahSize_spec _).1 (ahSize_spec _).2 rfl hm
  case h_14 =>
    exact pullupTo_advances hpull h (by decide) fun m b _ _ => walkCarp_advances
  case h_11 => trivial
  case h_17 =>
    split_ifs
    · trivial
    · exact pullupTo_advances hpull h (by decide) fun _ _ _ _ => trivial
  all_goals exact pullupTo_advances hpull h (by decide) fun _ _ _ _ => trivial

theorem Packet6.start_within (P : Packet6) : P.start.Within P := by
  have hlen := P.hdr_le
  exact ⟨P.mLen_le, show 40 ≤ P.len + 2048 by omega⟩

theorem Packet6.Reach.within (hpull : PullupOk P.len pull) (h : P.Reach pull deny s) :
    s.Within P := by
  induction h with
  | start => exact P.start_within
  | step _ hstep ih =>
    have hadv := @walkStep_advances P pull deny _ hpull ih
    rw [hstep] at hadv
    exact hadv.2.2

/-- The loop ends, since every header that is skipped takes 8 bytes. -/
theorem walk6_ends (hpull : PullupOk P.len pull) (h : s.Within P)
    (hn : P.len ≤ s.hlen.toNat + 8 * n) :
    ∃ r, walk6 P pull deny (n + 1) s = some r ∧ r ≠ .fault := by
  induction n generalizing s with
  | zero =>
    have hadv := @walkStep_advances P pull deny s hpull h
    unfold walk6
    cases hstep : walkStep P pull deny s with
    | loop s' =>
      rw [hstep] at hadv
      exact absurd hadv.1 (by omega)
    | fault =>
      rw [hstep] at hadv
      exact hadv.elim
    | done s' => exact ⟨_, rfl, Walk6.noConfusion⟩
    | deny => exact ⟨_, rfl, Walk6.noConfusion⟩
    | pullupFailed => exact ⟨_, rfl, Walk6.noConfusion⟩
  | succ n ih =>
    have hadv := @walkStep_advances P pull deny s hpull h
    unfold walk6
    cases hstep : walkStep P pull deny s with
    | loop s' =>
      rw [hstep] at hadv
      obtain ⟨-, hgrows, hwithin⟩ := hadv
      exact ih hwithin (by omega)
    | fault =>
      rw [hstep] at hadv
      exact hadv.elim
    | done s' => exact ⟨_, rfl, Walk6.noConfusion⟩
    | deny => exact ⟨_, rfl, Walk6.noConfusion⟩
    | pullupFailed => exact ⟨_, rfl, Walk6.noConfusion⟩

/-- **The walk over the IPv6 headers.** For every packet, the loop ends, skips at least 8 bytes with
every header, and reads no header that ends after the packet. -/
theorem Packet6.walk_ok (P : Packet6) (pull : ℕ → ℕ → Option ℕ) (deny : Bool)
    (hpull : PullupOk P.len pull) : P.WalkOk pull deny := by
  refine ⟨fun n hn => ?_, fun s s' hs hstep => ?_,
    fun s hs => ⟨fun hfault => ?_, fun n hn hok => ?_⟩⟩
  · obtain ⟨n, rfl⟩ := Nat.exists_eq_succ_of_ne_zero (Nat.ne_zero_of_lt hn)
    refine walk6_ends hpull P.start_within ?_
    have h40 : P.start.hlen.toNat = 40 := rfl
    omega
  · have hadv := @walkStep_advances P pull deny s hpull (hs.within hpull)
    rw [hstep] at hadv
    exact hadv.2.1
  · have hadv := @walkStep_advances P pull deny s hpull (hs.within hpull)
    rw [hfault] at hadv
    exact hadv
  · obtain hfail | ⟨m, hm, hm', -⟩ := pullupTo_spec hpull (hs.within hpull) hn
    · exact absurd hfail hok
    · exact Nat.le_trans hm hm'

/-- A TCP packet of 68 bytes with a hop-by-hop header of 8 bytes. -/
def hopTcp : Packet6 where
  byte i := if i = 40 then 6 else 0
  len := 68
  mLen := 40
  hdr_le := by decide
  mLen_le := by decide
  len_le := by decide

/-- `m_pullup` of a packet of the given length, when there is memory. -/
def pullup (len _m x : ℕ) : Option ℕ := if x ≤ len then some x else none

/-- The loop reads the options and the TCP header. -/
theorem hopTcp_walk : hopTcp.WalkOk (pullup 68) true :=
  hopTcp.walk_ok _ true fun _ x m' h => by
    unfold pullup at h
    split_ifs at h with hle
    obtain rfl := Option.some.inj h
    exact ⟨le_rfl, hle⟩

example : walk6 hopTcp (pullup 68) true 2 hopTcp.start =
    some (.done { hopTcp.start with mLen := 68, hlen := 48, proto := 6, extHd := 2 }) := by
  decide +kernel

end Ipfw
