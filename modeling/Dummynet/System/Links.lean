import Mathlib
import Dummynet.System.Replace

/-!
# The parameters of a link, back and forth

`config_link` translates the delay of a link from milliseconds to ticks and its burst from bytes to
bits times `hz`. The copy of the link that `dummynet_get` returns has the burst translated back, and
the delay still in ticks.

## Main definitions

* `DnLink.scaled`: the link that `config_link` stores.
* `copyObj`, `copyDataHelper`, `dummynetGet`: the links that are returned.
* `Dn.Later`: what comes later, up to the next configuration of a link or a scheduler.
* `DnLink.RoundTrips`: the link that is returned is the one that was configured.

## Main results

* `configLink_links`: what `config_link` leaves.
* `delay_error_iff`, `burst_sdiv_iff`: the two translations.
* `roundTrips_iff`: when a link is returned as it was configured.
-/

namespace Dummynet

variable {s t u : Dn} {sp : SchkPtr} {n : BitVec 32} {p l : DnLink} {err hz : ℕ}

/-! ### The stored link -/

/-- The factor for the burst, `8 * hz`. -/
def burstScale (hz : ℕ) : BitVec 64 := (8 * BitVec.ofNat 32 hz).signExtend 64

/-- The link with the delay in ticks and the burst in bits times `hz`. -/
def DnLink.scaled (hz : ℕ) (p : DnLink) : DnLink :=
  { p with
    delay := (p.delay * BitVec.ofNat 32 hz).sdiv 1000
    burst := p.burst * burstScale hz }

/-- **`config_link`** writes the link and the one of the FIFO twin. -/
theorem configLink_links (hs : Tabled s) (h : configLink s p = some (0, t)) :
    Tabled t ∧ ∀ n, n = p.linkNr ∨ n = p.linkNr + dnMaxId →
      ∃ sp, t.findSched n = some sp ∧ (t.schk sp).link = (p.scaled s.parms.hz).at n := by
  refine ⟨configLink_tabled hs h, ?_⟩
  unfold configLink at h
  dsimp only at h
  split at h
  · exact absurd (Prod.mk.inj (Option.some.inj h)).1 (by decide)
  next hbad =>
  rw [not_or, not_or, not_le, not_le] at hbad
  obtain ⟨-, hpos, hlt⟩ := hbad
  have hi := ne_zero_of_toInt_pos hpos
  have hi' := add_dnMaxId_ne_zero hpos hlt
  split at h
  · exact absurd (Prod.mk.inj (Option.some.inj h)).1 (by decide)
  next sp hfind =>
  obtain ⟨u, hu, h⟩ := Option.bind_eq_some_iff.1 h
  obtain ⟨hw, hsch, hlink, -⟩ := setLink_wrote hu
  obtain ⟨hu', hfound, -⟩ := hw.found hs hi hfind
    ((congrArg DnSch.schedNr hsch).trans (inBucket_of_find hfind).2) (by rw [hlink]; rfl)
  split at h
  · exact absurd (Prod.mk.inj (Option.some.inj h)).1 (by decide)
  next sp' hfind' =>
  obtain ⟨v, hv, h⟩ := Option.bind_eq_some_iff.1 h
  obtain ⟨-, rfl⟩ := Prod.mk.inj (Option.some.inj h)
  obtain ⟨hw', hsch', hlink', -⟩ := setLink_wrote hv
  obtain ⟨-, hfound', hothers⟩ := hw'.found hu' hi' hfind'
    ((congrArg DnSch.schedNr hsch').trans (inBucket_of_find hfind').2) (by rw [hlink']; rfl)
  have hne : p.linkNr ≠ p.linkNr + dnMaxId := by
    rw [Ne, left_eq_add]
    decide
  rintro n (rfl | rfl)
  · obtain ⟨hsame, hcore⟩ := hothers p.linkNr hi hne
    exact ⟨sp, hsame.trans hfound, (Schk.link_of_core (hcore sp hfound)).trans hlink⟩
  · exact ⟨sp', hfound', hlink'⟩

/-! ### The links that are returned -/

/-- `copy_obj` on a link, with some room in the buffer. -/
def copyObj (hz room : ℕ) (l : DnLink) : Option DnLink :=
  if room < l.oid.len.toNat ∨ l.oid.len = 0 ∨ l.oid.type = 0 then none
  else if l.oid.type = 1 then some { l with burst := l.burst.sdiv (burstScale hz) } else some l

/-- The scheduler is one of the command, with type `DN_LINK` or `DN_SCH`, and in one of its ranges. -/
def inRange (isLink : Bool) (r : List (BitVec 32 × BitVec 32)) (n : BitVec 32) : Bool :=
  (if isLink then decide (dnMaxId.toInt < n.toInt) else decide (n.toInt < dnMaxId.toInt)) &&
    r.any fun e => decide (e.1.toNat ≤ n.toNat ∧ n.toNat ≤ e.2.toNat)

/-- `copy_data_helper` on the schedulers that are left: each link that is copied, with its scheduler.
The other objects of a scheduler only take room. -/
def copyDataHelper (hz : ℕ) (room : SchkPtr → ℕ) (isLink : Bool)
    (r : List (BitVec 32 × BitVec 32)) (s : Dn) : List SchkPtr → List (SchkPtr × DnLink)
  | [] => []
  | sp :: sps =>
    if inRange isLink r (s.schedNr sp) then
      match copyObj hz (room sp) (s.schk sp).link with
      | none => []
      | some l => (sp, l) :: copyDataHelper hz room isLink r s sps
    else copyDataHelper hz room isLink r s sps

/-- The links that `dummynet_get` returns for a command with the given ranges. -/
def dummynetGet (hz : ℕ) (room : SchkPtr → ℕ) (isLink : Bool) (r : List (BitVec 32 × BitVec 32))
    (s : Dn) : List (SchkPtr × DnLink) :=
  match s.schedhash with
  | none => []
  | some ht => copyDataHelper hz room isLink r s ht.ordered

theorem copyObj_of_mem {room : SchkPtr → ℕ} {isLink : Bool} {r : List (BitVec 32 × BitVec 32)}
    {sps : List SchkPtr} (h : (sp, l) ∈ copyDataHelper hz room isLink r s sps) :
    copyObj hz (room sp) (s.schk sp).link = some l := by
  induction sps with
  | nil => exact absurd h List.not_mem_nil
  | cons sp' sps ih =>
    rw [copyDataHelper] at h
    split at h
    · split at h
      · exact absurd h List.not_mem_nil
      · next l' hl' =>
        rcases List.mem_cons.1 h with he | h
        · obtain ⟨rfl, rfl⟩ := Prod.mk.inj he
          exact hl'
        · exact ih h
    · exact ih h

theorem copyObj_of_get {room : SchkPtr → ℕ} {isLink : Bool} {r : List (BitVec 32 × BitVec 32)}
    (h : (sp, l) ∈ dummynetGet hz room isLink r s) :
    copyObj hz (room sp) (s.schk sp).link = some l := by
  unfold dummynetGet at h
  split at h
  · exact absurd h List.not_mem_nil
  · exact copyObj_of_mem h

/-- What packets, the timer, the parameters and requests for flowsets lead to. -/
inductive Dn.Later (s : Dn) : Dn → Prop
  | refl : Later s s
  | env {t : Dn} (e : Env) (log : List Event) : Later s t →
      Later s { t with env := e, log := log }
  | sysctl {t : Dn} (parms' : DnParms) : Later s t → Later s { t with parms := parms' }
  | io {t u : Dn} {a : IoArgs} {r : IoResult} : Later s t → dummynetIo t a = some (r, u) →
      Later s u
  | task {t u : Dn} : Later s t → dummynetTask t = some u → Later s u
  | fs {t u : Dn} {c : FsConfig} {o : Option FskPtr} : Later s t → configFs t c = some (o, u) →
      Later s u

/-- The links stay as they are. -/
theorem Dn.Later.sameAt (h : s.Later t) (n : BitVec 32) : SameAt n s t := by
  induction h with
  | refl => exact .refl n s
  | env e log _ ih => exact ih.trans ⟨rfl, fun _ _ => rfl⟩
  | sysctl parms' _ ih => exact ih.trans ⟨rfl, fun _ _ => rfl⟩
  | io _ h ih => exact ih.trans ((dummynetIo_fixed h).sameAt n)
  | task _ h ih => exact ih.trans ((dummynetTask_fixed h).sameAt n)
  | fs _ h ih => exact ih.trans ((configFs_fixed h).sameAt n)

/-! ### The delay -/

theorem toInt_scaled {d : BitVec 32} (hhz : hz < 2 ^ 31) (hlo : -2 ^ 31 ≤ d.toInt * hz)
    (hhi : d.toInt * hz < 2 ^ 31) :
    ((d * BitVec.ofNat 32 hz).sdiv 1000).toInt = (d.toInt * hz).tdiv 1000 := by
  have hofNat : (BitVec.ofNat 32 hz).toInt = hz := by
    have hnat : (BitVec.ofNat 32 hz).toNat = hz := by
      rw [BitVec.toNat_ofNat]
      exact Nat.mod_eq_of_lt (by omega)
    rw [BitVec.toInt_eq_toNat_of_lt (by omega), hnat]
  have hmul : (d * BitVec.ofNat 32 hz).toInt = d.toInt * hz := by
    rw [BitVec.toInt_mul, hofNat]
    exact Int.bmod_eq_of_le (by norm_num; omega) (by norm_num; omega)
  have habs : ((d.toInt * hz).tdiv 1000).natAbs = (d.toInt * hz).natAbs / 1000 :=
    Int.natAbs_tdiv ..
  have hdiv : (1000 : BitVec 32).toInt = 1000 := by decide
  rw [BitVec.toInt_sdiv, hmul, hdiv]
  exact Int.bmod_eq_of_le (by norm_num; omega) (by norm_num; omega)

/-- The error does not depend on the sign. -/
theorem natAbs_error (d : ℤ) (hz : ℕ) :
    |(d * hz).tdiv 1000 - d| = |((d.natAbs * hz / 1000 : ℕ) : ℤ) - d.natAbs| := by
  have hcast : ((d.natAbs : ℤ) * hz).tdiv 1000 = ((d.natAbs * hz / 1000 : ℕ) : ℤ) := by
    rw [← Nat.cast_mul]
    exact (Int.ofNat_tdiv _ 1000).symm
  rcases Int.natAbs_eq d with hd | hd
  · rw [← hcast, ← hd]
  · have hneg : (d * hz).tdiv 1000 - d = -(((d.natAbs : ℤ) * hz).tdiv 1000 - d.natAbs) := by
      conv_lhs => rw [hd]
      rw [Int.neg_mul, Int.neg_tdiv]
      ring
    rw [hneg, abs_neg, hcast]

/-- A clock that is slower than one tick per millisecond. -/
theorem slow_error_iff {d : ℕ} (hhz : 0 < hz) :
    (d - d * hz / 1000) * hz ≤ 1000 ↔ d * (1000 - hz) ≤ 1000 * (1000 / hz) := by
  have hmul : d * (1000 - hz) = 1000 * d - d * hz := by rw [Nat.mul_sub, Nat.mul_comm d 1000]
  rw [← Nat.le_div_iff_mul_le hhz, hmul]
  omega

/-- A clock that is faster. -/
theorem fast_error_iff {d : ℕ} (hlt : 1000 < hz) :
    (d * hz / 1000 - d) * hz ≤ 1000 ↔ d * (hz - 1000) < 1000 := by
  have hmul : d * (hz - 1000) = d * hz - 1000 * d := by rw [Nat.mul_sub, Nat.mul_comm d 1000]
  have hle : 1000 * d ≤ d * hz := by
    rw [Nat.mul_comm]
    exact Nat.mul_le_mul_left d hlt.le
  rw [← Nat.le_div_iff_mul_le (by omega), Nat.div_eq_of_lt hlt, hmul]
  omega

/-- A delay of so many milliseconds is as many ticks, up to one tick. -/
def DelayKept (hz d : ℕ) : Prop :=
  if hz ≤ 1000 then d * (1000 - hz) ≤ 1000 * (1000 / hz) else d * (hz - 1000) < 1000

instance (hz d : ℕ) : Decidable (DelayKept hz d) := by unfold DelayKept; infer_instance

/-- **The delay in ticks, read as milliseconds**. -/
theorem delay_error_iff (d : ℤ) (hhz : 0 < hz) :
    |(d * hz).tdiv 1000 - d| * hz ≤ 1000 ↔ DelayKept hz d.natAbs := by
  rw [natAbs_error, DelayKept]
  generalize d.natAbs = d
  split_ifs with hle
  · have hdiv : d * hz / 1000 ≤ d := Nat.div_le_of_le_mul (by
      rw [Nat.mul_comm 1000]
      exact Nat.mul_le_mul_left d hle)
    rw [← slow_error_iff hhz, abs_sub_comm, ← Nat.cast_sub hdiv, Nat.abs_cast]
    exact_mod_cast Iff.rfl
  · have hdiv : d ≤ d * hz / 1000 := (Nat.le_div_iff_mul_le (by norm_num)).2
      (Nat.mul_le_mul_left d (not_le.1 hle).le)
    rw [← fast_error_iff (not_le.1 hle), ← Nat.cast_sub hdiv, Nat.abs_cast]
    exact_mod_cast Iff.rfl

/-! ### The burst -/

theorem toNat_burstScale (hhz : 8 * hz < 2 ^ 31) : (burstScale hz).toNat = 8 * hz := by
  have hnat : (8 * BitVec.ofNat 32 hz).toNat = 8 * hz := by
    have hhz' : (BitVec.ofNat 32 hz).toNat = hz := by
      rw [BitVec.toNat_ofNat]
      exact Nat.mod_eq_of_lt (by omega)
    rw [BitVec.toNat_mul, hhz']
    exact Nat.mod_eq_of_lt (by omega : 8 * hz < 2 ^ 32)
  have hmsb : (8 * BitVec.ofNat 32 hz).msb = false := by
    rw [BitVec.msb_eq_false_iff_two_mul_lt, hnat]
    omega
  rw [burstScale, BitVec.signExtend_eq_setWidth_of_msb_false hmsb, BitVec.toNat_setWidth, hnat]
  exact Nat.mod_eq_of_lt (by omega)

/-- **The burst** comes back if it is positive as a signed number. -/
theorem burst_sdiv_iff {b k : BitVec 64} (hk : 2 ≤ k.toNat) (hlt : k.toNat < 2 ^ 31)
    (hfit : b.toNat * k.toNat < 2 ^ 64) : (b * k).sdiv k = b ↔ b.toNat * k.toNat < 2 ^ 63 := by
  have hmul : (b * k).toNat = b.toNat * k.toNat := by
    rw [BitVec.toNat_mul, Nat.mod_eq_of_lt hfit]
  have hmsb : k.msb = false := by
    rw [BitVec.msb_eq_false_iff_two_mul_lt]
    omega
  rw [← BitVec.toNat_inj]
  by_cases hsmall : b.toNat * k.toNat < 2 ^ 63
  · have hmsb' : (b * k).msb = false := by
      rw [BitVec.msb_eq_false_iff_two_mul_lt, hmul]
      omega
    have hquot : b.toNat * k.toNat / k.toNat = b.toNat := Nat.mul_div_cancel _ (by omega)
    simp only [BitVec.sdiv_eq, hmsb, hmsb', BitVec.udiv_eq, BitVec.toNat_udiv, hmul, hquot, hsmall]
  · -- the quotient of a negative number is not positive
    have hmsb' : (b * k).msb = true := by
      rw [BitVec.msb_eq_true_iff_two_mul_ge, hmul]
      omega
    have hsmallb : b.toNat < 2 ^ 63 := by
      have hle := Nat.mul_le_mul_left b.toNat hk
      omega
    have hquot : (2 ^ 64 - b.toNat * k.toNat) % 2 ^ 64 / k.toNat ≤ 2 ^ 62 := by
      rw [Nat.mod_eq_of_lt (by omega)]
      exact (Nat.div_le_div_left hk (by omega)).trans (by omega)
    have hpos : 0 < b.toNat := by
      by_contra hzero
      rw [Nat.eq_zero_of_not_pos hzero] at hsmall
      omega
    simp only [BitVec.sdiv_eq, hmsb, hmsb', BitVec.udiv_eq, hsmall, iff_false, BitVec.toNat_neg,
      BitVec.toNat_udiv, hmul]
    generalize (2 ^ 64 - b.toNat * k.toNat) % 2 ^ 64 / k.toNat = q at hquot ⊢
    omega

/-! ### The round trip -/

/-- The link that is returned is the one that was configured, the delay up to one tick. -/
structure DnLink.RoundTrips (hz : ℕ) (p l : DnLink) : Prop where
  bandwidth : l.bandwidth = p.bandwidth
  burst : l.burst = p.burst
  delay : |l.delay.toInt - p.delay.toInt| * hz ≤ 1000

/-- The scaled values fit into the fields of the link. -/
structure DnLink.Fits (hz : ℕ) (p : DnLink) : Prop where
  scale : 8 * hz < 2 ^ 31
  delay_lo : -2 ^ 31 ≤ p.delay.toInt * hz
  delay_hi : p.delay.toInt * hz < 2 ^ 31
  burst : p.burst.toNat * (8 * hz) < 2 ^ 64

theorem copied_iff (hhz : 0 < hz) (hfit : p.Fits hz) {room : ℕ} (htype : p.oid.type = 1)
    (h : copyObj hz room ((p.scaled hz).at n) = some l) :
    p.RoundTrips hz l ↔ DelayKept hz p.delay.toInt.natAbs ∧ p.burst.toNat * (8 * hz) < 2 ^ 63 := by
  have hscale := toNat_burstScale hfit.scale
  have hburst := burst_sdiv_iff (b := p.burst) (k := burstScale hz) (by omega)
    (hscale ▸ hfit.scale) (hscale ▸ hfit.burst)
  have hdelay := toInt_scaled (by have := hfit.scale; omega) hfit.delay_lo hfit.delay_hi
  rw [hscale] at hburst
  have hl : l = { (p.scaled hz).at n with
      burst := (p.burst * burstScale hz).sdiv (burstScale hz) } := by
    unfold copyObj at h
    split_ifs at h with hroom htype'
    · exact (Option.some.inj h).symm
    · exact absurd htype htype'
  subst hl
  rw [← delay_error_iff _ hhz, ← hburst, ← hdelay]
  exact ⟨fun hr => ⟨hr.delay, hr.burst⟩, fun hr => ⟨rfl, hr.2, hr.1⟩⟩

/-- **A link is returned as it was configured** exactly if its delay is the same number of
milliseconds and ticks, and its burst positive as a signed number. -/
theorem roundTrips_iff {parms : DnParms} {schedlist : List SchedType}
    (hs : Dn.Reach parms schedlist s) (hhz : 0 < s.parms.hz) (hfit : p.Fits s.parms.hz)
    (htype : p.oid.type = 1) (h : configLink s p = some (0, t)) (hu : t.Later u)
    (hn : n = p.linkNr ∨ n = p.linkNr + dnMaxId) (hsp : u.findSched n = some sp)
    (room : SchkPtr → ℕ) (isLink : Bool) (r : List (BitVec 32 × BitVec 32))
    (hl : (sp, l) ∈ dummynetGet s.parms.hz room isLink r u) :
    p.RoundTrips s.parms.hz l ↔ DelayKept s.parms.hz p.delay.toInt.natAbs ∧
      p.burst.toNat * (8 * s.parms.hz) < 2 ^ 63 := by
  obtain ⟨sp', hfind, hlink⟩ := (configLink_links hs.tabled h).2 n hn
  obtain ⟨hsame, hcore⟩ := hu.sameAt n
  obtain rfl : sp' = sp := Option.some.inj (hfind.symm.trans (hsame.symm.trans hsp))
  have hcopy := copyObj_of_get hl
  rw [Schk.link_of_core (hcore sp' hfind), hlink] at hcopy
  exact copied_iff hhz hfit htype hcopy

/-- A request for the link 1 with 50 ms of delay. -/
def linkOne : DnLink where
  oid := { len := sizeofLink, type := 1 }
  linkNr := 1
  bandwidth := 1000000
  delay := 50
  burst := 3000

theorem fits_linkOne (h : hz ≤ 1000) : linkOne.Fits hz := by
  have hdelay : linkOne.delay.toInt = 50 := by decide
  have hburst : linkOne.burst.toNat = 3000 := by decide
  refine ⟨by omega, ?_, ?_, ?_⟩
  · rw [hdelay]
    omega
  · rw [hdelay]
    omega
  · rw [hburst]
    omega

/-- What `pipe show` returns after the scheduler 1 and its link were configured. -/
def shown (parms : DnParms) : Option (Dn × Dn × SchkPtr × DnLink) := do
  let (_, s) ← configSched (Dn.init parms [.fifo, .wf2qp, .rr]) (schedOne 2)
  let (err, t) ← configLink s linkOne
  if err ≠ 0 then none
  else
    let (sp, l) ← (dummynetGet s.parms.hz (fun _ => 1000) true
      [(1 + dnMaxId, dnMaxId - 1 + dnMaxId)] t).head?
    pure (s, t, sp, l)

theorem shown_spec {parms : DnParms} (h : shown parms = some (s, t, sp, l)) :
    Dn.Reach parms [.fifo, .wf2qp, .rr] s ∧ configLink s linkOne = some (0, t) ∧
      (sp, l) ∈ dummynetGet s.parms.hz (fun _ => 1000) true
        [(1 + dnMaxId, dnMaxId - 1 + dnMaxId)] t := by
  obtain ⟨⟨err, s'⟩, hs, h⟩ := Option.bind_eq_some_iff.1 h
  obtain ⟨⟨err', t'⟩, ht, h⟩ := Option.bind_eq_some_iff.1 h
  dsimp only at h
  split_ifs at h with herr
  obtain ⟨⟨sp', l'⟩, hl, h⟩ := Option.bind_eq_some_iff.1 h
  obtain ⟨rfl, rfl, rfl, rfl⟩ := by simpa using Option.some.inj h
  obtain rfl := not_not.1 herr
  exact ⟨.object (o := .sch (schedOne 2)) .init hs, ht, List.mem_of_head? hl⟩

/-- With 1000 ticks in a second the link comes back. -/
theorem roundTrips_linkOne : ∃ s t sp l, shown {} = some (s, t, sp, l) ∧
    linkOne.RoundTrips 1000 l := by
  have hexec : (shown {}).any (fun x => decide (x.1.parms.hz = 1000 ∧
      x.2.1.findSched (linkOne.linkNr + dnMaxId) = some x.2.2.1)) = true := by decide +kernel
  obtain ⟨⟨s, t, sp, l⟩, h, hall⟩ := (Option.any_eq_true _ _).1 hexec
  obtain ⟨hhz, hsp⟩ := of_decide_eq_true hall
  change s.parms.hz = 1000 at hhz
  obtain ⟨hs, hconf, hl⟩ := shown_spec h
  have hiff := roundTrips_iff hs (by omega) (fits_linkOne hhz.le) rfl hconf .refl (.inr rfl) hsp
    _ _ _ hl
  rw [hhz] at hiff
  exact ⟨s, t, sp, l, h, hiff.2 (by decide)⟩

/-- With 100 ticks in a second 50 ms of delay come back as 5. -/
theorem not_roundTrips : ¬ ∀ (parms : DnParms) (schedlist : List SchedType) (s t : Dn)
    (p l : DnLink) (sp : SchkPtr) (room : SchkPtr → ℕ) (isLink : Bool)
    (r : List (BitVec 32 × BitVec 32)), Dn.Reach parms schedlist s → 0 < s.parms.hz →
    p.Fits s.parms.hz → p.oid.type = 1 → configLink s p = some (0, t) →
    t.findSched (p.linkNr + dnMaxId) = some sp →
    (sp, l) ∈ dummynetGet s.parms.hz room isLink r t → p.RoundTrips s.parms.hz l := by
  intro hclaim
  have hexec : (shown { hz := 100 }).any (fun x => decide (x.1.parms.hz = 100 ∧
      x.2.1.findSched (linkOne.linkNr + dnMaxId) = some x.2.2.1 ∧
      x.2.2.2.delay = 5)) = true := by decide +kernel
  obtain ⟨⟨s, t, sp, l⟩, h, hall⟩ := (Option.any_eq_true _ _).1 hexec
  obtain ⟨hhz, hsp, hdelay⟩ := of_decide_eq_true hall
  change s.parms.hz = 100 at hhz
  change l.delay = 5 at hdelay
  obtain ⟨hs, hconf, hl⟩ := shown_spec h
  have hround := (hclaim _ _ s t _ l sp _ _ _ hs (by omega)
    (fits_linkOne (by rw [hhz]; decide)) rfl hconf hsp hl).delay
  rw [hdelay, hhz] at hround
  exact absurd hround (by decide)

end Dummynet
