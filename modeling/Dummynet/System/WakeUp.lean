import Dummynet.System.Links
import Dummynet.System.Serve
import Dummynet.System.Samples

/-!
# Waking up

An instance whose credit is used up is put back in the event heap, for the first tick at which its
link has paid back. The time is a division by the bandwidth, which `config_link` does not check: with
a negative one every packet costs credit that time does not give back.

## Main definitions

* `Refills`: a delay is the least one after which a credit is not negative.
* `Dn.WakesUp`: `serve_sched` asserts a bandwidth and computes such a delay.
* `Dn.ServeFits`: the credit of a service stays in a signed word.

## Main results

* `refill_refills`: the division is exact.
* `Dn.ReachBy.wakesUp`: every service, in every run without negative bandwidths.
-/

namespace Dummynet

variable {s t u v s₀ : Dn} {p : SiPtr} {sp : SchkPtr} {m : Mbuf} {n : ℕ} {parms : DnParms}
  {schedlist : List SchedType} {done done' last : Bool}

/-- The bandwidth of the link of an instance. -/
def Dn.bandwidth (s : Dn) (p : SiPtr) : BitVec 32 := (s.schk (s.inst p).sched).link.bandwidth

/-- After `t` ticks, and not before, a negative credit is paid back; less than one tick is left
over. -/
structure Refills (bw credit t : ℤ) : Prop where
  pos : 1 ≤ t
  before : (t - 1) * bw < -credit
  after : -credit ≤ t * bw
  rest : credit + t * bw < bw

/-- **The wake-up time.** Where the loop of `serve_sched` leaves a negative credit, the link has a
bandwidth, and the instance goes to the event heap for the tick at which the credit is paid back. -/
def Dn.WakesUp (s : Dn) (p : SiPtr) (now : BitVec 64) : Prop :=
  ∀ done last u,
    serveLoop (((grantCredit s p now).inst p).pkts + 1) (grantCredit s p now) p false =
      some (done, last, u) →
    (u.inst p).credit.toInt < 0 →
      0 < (u.bandwidth p).toInt ∧
      Refills (u.bandwidth p).toInt (u.inst p).credit.toInt (u.refill p).toNat ∧
      reschedule u p now last = some ((u.setInst p { u.inst p with
        dline := if last then delayLast (u.refill p) (u.inst p).dline else (u.inst p).dline
        active := true }).evInsert (now + u.refill p) (.si p))

/-! ### The division -/

/-- **The division rounds up.** -/
theorem refill_refills (hbw : 0 < (s.bandwidth p).toInt) (hneg : (s.inst p).credit.toInt < 0)
    (hlow : (s.bandwidth p).toInt - 2 ^ 63 ≤ (s.inst p).credit.toInt) :
    Refills (s.bandwidth p).toInt (s.inst p).credit.toInt (s.refill p).toNat := by
  have hsign : ((s.bandwidth p).signExtend 64).toInt = (s.bandwidth p).toInt :=
    BitVec.toInt_signExtend_of_le (by omega)
  have hmax : (s.bandwidth p).toInt < 2 ^ 31 := by
    have := BitVec.toInt_lt (x := s.bandwidth p)
    omega
  set bw := (s.bandwidth p).toInt
  set credit := (s.inst p).credit.toInt
  have hnum : ((s.bandwidth p).signExtend 64 - 1 - (s.inst p).credit).toInt = bw - 1 - credit := by
    have hone : (1 : BitVec 64).toInt = 1 := by decide
    rw [BitVec.toInt_sub, BitVec.toInt_sub, hsign, hone, Int.bmod_sub_bmod]
    exact Int.bmod_eq_of_le_mul_two (by omega) (by omega)
  have hdiv : (s.refill p).toInt = (bw - 1 - credit) / bw := by
    unfold Dn.refill
    dsimp only
    change (((s.bandwidth p).signExtend 64 - 1 - (s.inst p).credit).sdiv
      ((s.bandwidth p).signExtend 64)).toInt = _
    have hq : (bw - 1 - credit) / bw ≤ bw - 1 - credit :=
      Int.ediv_le_self _ (by omega)
    have hq0 : 0 ≤ (bw - 1 - credit) / bw := Int.ediv_nonneg (by omega) hbw.le
    rw [BitVec.toInt_sdiv, hnum, hsign, Int.tdiv_eq_ediv_of_nonneg (by omega)]
    exact Int.bmod_eq_of_le_mul_two (by omega) (by omega)
  have hpos : 1 ≤ (bw - 1 - credit) / bw := by
    rw [Int.le_ediv_iff_mul_le hbw]
    omega
  have hnat : ((s.refill p).toNat : ℤ) = (bw - 1 - credit) / bw := by
    rw [← hdiv]
    have hcond := BitVec.toInt_eq_toNat_cond (s.refill p)
    split_ifs at hcond
    · exact hcond.symm
    · have hlt := (s.refill p).isLt
      omega
  rw [hnat]
  have hmul := Int.mul_ediv_add_emod (bw - 1 - credit) bw
  have hmod := Int.emod_nonneg (bw - 1 - credit) hbw.ne'
  have hlt := Int.emod_lt_of_pos (bw - 1 - credit) hbw
  have hcomm : (bw - 1 - credit) / bw * bw = bw * ((bw - 1 - credit) / bw) := Int.mul_comm _ _
  refine ⟨hpos, ?_, ?_, ?_⟩
  · rw [Int.sub_mul, one_mul, hcomm]
    omega
  · rw [hcomm]
    omega
  · rw [hcomm]
    omega

/-! ### The price of packets -/

/-- What `extra_bits` returns, for a random number. -/
def bitsFor (pf : Option DnProfile) (bw : BitVec 32) (r : ℕ) : BitVec 64 :=
  match pf with
  | none => 0
  | some pf =>
    if pf.samplesNo = 0 then 0
    else
      ((pf.samples (r % pf.samplesNo.toInt.natAbs)).signExtend 64 * bw.signExtend 64).sdiv 1000

/-- The credit that a packet costs, for a random number. -/
def Dn.price (s : Dn) (p : SiPtr) (m : Mbuf) (r : ℕ) : BitVec 64 :=
  BitVec.ofNat 64 s.parms.hz * ((BitVec.ofNat 32 m.len * 8).signExtend 64 +
    bitsFor (s.schk (s.inst p).sched).profile (s.bandwidth p) r)

/-- The credit that the time since the last service gives. -/
def Dn.granted (s : Dn) (p : SiPtr) (now : BitVec 64) : ℤ :=
  (s.inst p).credit.toInt + (now - (s.inst p).schedTime).toNat * (s.bandwidth p).toInt

/-- **The credit stays in a signed word**: the one that time gives, the price of each packet in the
queues, and what prices that are negative, as negative samples make them, may add. -/
def Dn.ServeFits (s : Dn) (p : SiPtr) (now : BitVec 64) : Prop :=
  0 < (s.bandwidth p).toInt →
    (s.bandwidth p).toInt - 2 ^ 63 ≤ s.granted p now ∧
    ∃ k : ℤ, 0 ≤ k ∧ s.granted p now + ((s.inst p).pkts + 1) * k < 2 ^ 63 ∧
      ∀ q, ∀ m ∈ (s.inst p).s.mq q, ∀ r,
        -k ≤ (s.price p m r).toInt ∧ (s.price p m r).toInt ≤ 2 ^ 63 - (s.bandwidth p).toInt

theorem extraBits_bitsFor (s : Dn) (m : Mbuf) (sp : SchkPtr) :
    (extraBits s m sp).1 =
      bitsFor (s.schk sp).profile (s.schk sp).link.bandwidth (s.env.random 0) ∧
      (extraBits s m sp).2.parms = s.parms := by
  unfold extraBits bitsFor
  rcases hprof : (s.schk sp).profile with _ | pf
  · exact ⟨rfl, rfl⟩
  · dsimp only
    by_cases hno : pf.samplesNo = 0
    · rw [if_pos hno, if_pos hno]
      exact ⟨rfl, rfl⟩
    · rw [if_neg hno, if_neg hno]
      split_ifs <;> exact ⟨rfl, rfl⟩

theorem packetCost_price (h : s.bandwidth p ≠ 0) :
    ∃ r, (packetCost s m (s.inst p).sched).1 = s.price p m r := by
  refine ⟨s.env.random 0, ?_⟩
  obtain ⟨hbits, hparms⟩ := extraBits_bitsFor s m (s.inst p).sched
  unfold packetCost Dn.price
  rw [if_neg (show ¬ (s.schk (s.inst p).sched).link.bandwidth = 0 from h)]
  dsimp only
  rw [hbits, hparms]
  rfl

/-! ### A round -/

/-- The link, the parameters and the scheduler of an instance are the same, and its packets were
there before. -/
structure SameLink (p : SiPtr) (s t : Dn) : Prop where
  schk : t.schk = s.schk
  parms : t.parms = s.parms
  sched : (t.inst p).sched = (s.inst p).sched
  mq : ∀ q, ∀ m ∈ (t.inst p).s.mq q, ∃ q', m ∈ (s.inst p).s.mq q'

theorem SameLink.refl (p : SiPtr) (s : Dn) : SameLink p s s := ⟨rfl, rfl, rfl, fun q _ h => ⟨q, h⟩⟩

theorem SameLink.trans (h : SameLink p s t) (h' : SameLink p t u) : SameLink p s u :=
  ⟨h'.schk.trans h.schk, h'.parms.trans h.parms, h'.sched.trans h.sched, fun q m hm =>
    let ⟨q', hm'⟩ := h'.mq q m hm
    h.mq q' m hm'⟩

theorem SameLink.bandwidth (h : SameLink p s t) : t.bandwidth p = s.bandwidth p := by
  unfold Dn.bandwidth
  rw [h.schk, h.sched]

theorem SameLink.price (h : SameLink p s t) (m : Mbuf) (r : ℕ) : t.price p m r = s.price p m r := by
  unfold Dn.price
  rw [h.bandwidth, h.schk, h.sched, h.parms]

/-- **The callback `dequeue`** takes a packet from a queue, or nothing. -/
theorem dequeue_sameLink {o : Option Mbuf}
    (h : s.callback p (fun k t => k.desc.dequeue t) = some (o, t)) :
    SameLink p s t ∧ (t.inst p).credit = (s.inst p).credit ∧
      ∀ m, o = some m → ∃ q, m ∈ (s.inst p).s.mq q := by
  obtain ⟨r, hr, rfl⟩ := callback_spec h
  have hcredit : ((s.store p (s.inst p) r).inst p).credit = (s.inst p).credit := by
    rw [s.store_inst]
  have hmq : ∀ q, ((s.store p (s.inst p) r).inst p).s.mq q = r.mq q := by
    intro q
    rw [s.store_inst]
  have hsched : ((s.store p (s.inst p) r).inst p).sched = (s.inst p).sched := by
    rw [s.store_inst]
  rcases SchedType.takes hr with ⟨rfl, hshell⟩ | ⟨q, m, rfl, hm, hshell⟩
  · refine ⟨⟨rfl, rfl, hsched, fun q m hm => ⟨q, ?_⟩⟩, hcredit, fun m hm => absurd hm (by simp)⟩
    rw [hmq, shell_mq hshell] at hm
    exact hm
  · rcases hq : (s.load (s.inst p)).mq q with _ | ⟨m', rest⟩
    · rw [Inst.dequeue_nil hq] at hm
      exact absurd hm (by simp)
    obtain ⟨w, hw, hbut⟩ := Inst.dequeue_spec hq
    rw [hw] at hm hshell
    obtain rfl : m' = m := Option.some.inj hm
    have hhead : m' ∈ (s.inst p).s.mq q := by
      have hin : m' ∈ (s.load (s.inst p)).mq q := by
        rw [hq]
        exact List.mem_cons_self
      exact hin
    refine ⟨⟨rfl, rfl, hsched, fun q' m hm => ⟨q', ?_⟩⟩, hcredit, fun m hm => ⟨q, ?_⟩⟩
    · rw [hmq, shell_mq hshell] at hm
      change m ∈ (s.load (s.inst p)).mq q'
      rcases eq_or_ne q' q with rfl | hne
      · rw [hbut.mq_self] at hm
        rw [hq]
        exact List.mem_cons_of_mem _ hm
      · rw [hbut.mq_of_ne hne] at hm
        exact hm
    · exact Option.some.inj hm ▸ hhead

/-- A packet is charged. -/
theorem moveToDline_sameLink (s : Dn) (p : SiPtr) (m : Mbuf) :
    SameLink p s (moveToDline s p m) ∧
      (s.bandwidth p = 0 → ((moveToDline s p m).inst p).credit = (s.inst p).credit) ∧
      (s.bandwidth p ≠ 0 → ∃ r,
        ((moveToDline s p m).inst p).credit = (s.inst p).credit - s.price p m r) := by
  set e := s.emit (.dequeued p m)
  obtain ⟨dir, hparms, hsil⟩ := packetCost_silent e m (s.inst p).sched
  set w := (packetCost e m (s.inst p).sched).2
  have hw : w.inst p = s.inst p := congrFun hsil.inst p
  have hmove : (moveToDline s p m).inst p = { w.inst p with
      credit := (w.inst p).credit - (packetCost e m (s.inst p).sched).1
      dline := (w.inst p).dline ++ [⟨m, { w.tags m.ptr with
        outputTime := w.currTime + (w.schk (s.inst p).sched).link.delay.signExtend 64 }⟩] } :=
    Function.update_self ..
  refine ⟨⟨hsil.schk, hparms, ?_, fun q m' hm' => ⟨q, ?_⟩⟩, fun hzero => ?_, fun hne => ?_⟩
  · rw [hmove, hw]
  · rw [hmove, hw] at hm'
    exact hm'
  · rw [hmove, hw]
    have hcost : (packetCost e m (s.inst p).sched).1 = 0 := by
      unfold packetCost
      rw [if_pos (show (e.schk (s.inst p).sched).link.bandwidth = 0 from hzero)]
    rw [hcost]
    exact BitVec.sub_zero _
  · obtain ⟨r, hr⟩ := packetCost_price (s := e) (p := p) (m := m) hne
    refine ⟨r, ?_⟩
    rw [hmove, hw]
    exact congrArg (fun c => (s.inst p).credit - c) hr

/-! ### The loop -/

/-- Without bandwidth nothing is charged. -/
theorem serveLoop_free (hbw : s.bandwidth p = 0)
    (h : serveLoop n s p done = some (done', last, t)) :
    SameLink p s t ∧ (t.inst p).credit = (s.inst p).credit := by
  induction n generalizing s done with
  | zero => exact absurd h (by simp [serveLoop])
  | succ n ih =>
    unfold serveLoop at h
    split_ifs at h
    · obtain ⟨-, he⟩ := Prod.mk.inj (Option.some.inj h)
      obtain ⟨-, rfl⟩ := Prod.mk.inj he
      exact ⟨.refl p s, rfl⟩
    obtain ⟨⟨o, u⟩, hcall, h⟩ := Option.bind_eq_some_iff.1 h
    obtain ⟨hsu, hcredit, -⟩ := dequeue_sameLink hcall
    cases o with
    | none =>
      obtain ⟨-, he⟩ := Prod.mk.inj (Option.some.inj h)
      obtain ⟨-, rfl⟩ := Prod.mk.inj he
      exact ⟨hsu, hcredit⟩
    | some m =>
      obtain ⟨huv, hfree, -⟩ := moveToDline_sameLink u p m
      have hsv := hsu.trans huv
      obtain ⟨hvt, hcredit'⟩ := ih (hsv.bandwidth.trans hbw) h
      have hzero := hfree (hsu.bandwidth.trans hbw)
      exact ⟨hsv.trans hvt, hcredit'.trans (hzero.trans hcredit)⟩

/-- **With a bandwidth the credit stays in the word.** A packet is only charged to a credit that is
not negative. -/
theorem serveLoop_credit {k : ℤ} (hbw : 0 < (s.bandwidth p).toInt) (hk : 0 ≤ k)
    (hprice : ∀ q, ∀ m ∈ (s.inst p).s.mq q, ∀ r, -k ≤ (s.price p m r).toInt ∧
      (s.price p m r).toInt ≤ 2 ^ 63 - (s.bandwidth p).toInt)
    (hlow : (s.bandwidth p).toInt - 2 ^ 63 ≤ (s.inst p).credit.toInt)
    (hhigh : (s.inst p).credit.toInt + n * k < 2 ^ 63)
    (h : serveLoop n s p done = some (done', last, t)) :
    SameLink p s t ∧ (s.bandwidth p).toInt - 2 ^ 63 ≤ (t.inst p).credit.toInt := by
  induction n generalizing s done with
  | zero => exact absurd h (by simp [serveLoop])
  | succ n ih =>
    unfold serveLoop at h
    split_ifs at h with hneg
    · obtain ⟨-, he⟩ := Prod.mk.inj (Option.some.inj h)
      obtain ⟨-, rfl⟩ := Prod.mk.inj he
      exact ⟨.refl p s, hlow⟩
    obtain ⟨⟨o, u⟩, hcall, h⟩ := Option.bind_eq_some_iff.1 h
    obtain ⟨hsu, hcredit, hmem⟩ := dequeue_sameLink hcall
    cases o with
    | none =>
      obtain ⟨-, he⟩ := Prod.mk.inj (Option.some.inj h)
      obtain ⟨-, rfl⟩ := Prod.mk.inj he
      exact ⟨hsu, hcredit ▸ hlow⟩
    | some m =>
      obtain ⟨huv, -, hcharge⟩ := moveToDline_sameLink u p m
      have hsv := hsu.trans huv
      have hne : u.bandwidth p ≠ 0 := by
        rw [hsu.bandwidth]
        intro hzero
        rw [hzero] at hbw
        exact absurd hbw (by decide)
      obtain ⟨r, hr⟩ := hcharge hne
      obtain ⟨q, hq⟩ := hmem m rfl
      obtain ⟨hmin, hmax⟩ := hprice q m hq r
      rw [hcredit, hsu.price] at hr
      push_cast at hhigh
      rw [add_mul, one_mul] at hhigh
      have hnk : 0 ≤ (n : ℤ) * k := mul_nonneg (Int.natCast_nonneg n) hk
      -- the difference is exact
      have hexact : (((moveToDline u p m).inst p).credit).toInt =
          (s.inst p).credit.toInt - (s.price p m r).toInt := by
        rw [hr, BitVec.toInt_sub]
        exact Int.bmod_eq_of_le_mul_two (by omega) (by omega)
      have hsame := hsv.bandwidth
      have hgo := ih (s := moveToDline u p m) (by rwa [hsame]) (fun q' m' hm' r' => ?_)
        (by rw [hsame, hexact]; omega) (by rw [hexact]; omega) h
      · rw [hsame] at hgo
        exact ⟨hsv.trans hgo.1, hgo.2⟩
      · obtain ⟨q'', hm''⟩ := hsv.mq q' m' hm'
        rw [hsv.price, hsame]
        exact hprice q'' m' hm'' r'

/-! ### Runs -/

/-- A request for a link names a bandwidth that is not negative. -/
def NonnegBandwidth (_ : Dn) : DnObj → Prop
  | .link p => 0 ≤ p.bandwidth.toInt
  | _ => True

/-- **A service** of an instance whose link has no negative bandwidth. -/
theorem wakesUp_of_nonneg {now : BitVec 64} (hbw : 0 ≤ (s.bandwidth p).toInt)
    (hfits : s.ServeFits p now) : s.WakesUp p now := by
  intro done last u hloop hneg
  set g := grantCredit s p now with hg
  have hself : g.inst p = { s.inst p with
      active := false
      credit := if 0 < (s.bandwidth p).toInt then
          (s.inst p).credit + (now - (s.inst p).schedTime) * (s.bandwidth p).signExtend 64
        else 0
      schedTime := now } := Function.update_self ..
  have hsg : SameLink p s g :=
    ⟨rfl, rfl, by rw [hself], fun q m hm => ⟨q, by rw [hself] at hm; exact hm⟩⟩
  have hgs : g.bandwidth p = s.bandwidth p := hsg.bandwidth
  rcases hbw.eq_or_lt with hzero | hpos
  · -- no bandwidth: the credit is 0, and stays
    have hzero' : g.bandwidth p = 0 := by
      rw [hgs]
      exact BitVec.eq_of_toInt_eq (hzero.symm.trans (by decide))
    have hcredit := (serveLoop_free hzero' hloop).2
    rw [hself] at hcredit
    dsimp only at hcredit
    rw [if_neg hzero.not_lt] at hcredit
    rw [hcredit] at hneg
    exact absurd hneg (by decide)
  · obtain ⟨hlow, k, hk, hhigh, hprice⟩ := hfits hpos
    have hmax : (s.bandwidth p).toInt < 2 ^ 31 := by
      have := BitVec.toInt_lt (x := s.bandwidth p)
      omega
    have hpkts : (g.inst p).pkts = (s.inst p).pkts := by rw [hself]; rfl
    have hstart : 0 ≤ ((s.inst p).pkts + 1 : ℤ) * k := by positivity
    have hgrant : (g.inst p).credit.toInt = s.granted p now := by
      have hword : (g.inst p).credit = BitVec.ofInt 64 (s.granted p now) := by
        rw [hself]
        dsimp only
        rw [if_pos hpos]
        unfold Dn.granted
        rw [BitVec.ofInt_add, BitVec.ofInt_mul, BitVec.ofInt_toInt, BitVec.ofInt_natCast,
          BitVec.ofNat_toNat, BitVec.setWidth_eq]
        rfl
      rw [hword, BitVec.toInt_ofInt]
      exact Int.bmod_eq_of_le_mul_two (by omega) (by omega)
    obtain ⟨hgu, hend⟩ := serveLoop_credit (k := k) (by rwa [hgs]) hk
      (fun q m hm r => by
        obtain ⟨q', hm'⟩ := hsg.mq q m hm
        rw [hsg.price, hgs]
        exact hprice q' m hm' r)
      (by rw [hgs, hgrant]; exact hlow)
      (by rw [hgrant, hpkts]; push_cast; exact hhigh) hloop
    have hbu : u.bandwidth p = s.bandwidth p := (hsg.trans hgu).bandwidth
    have hpos' : 0 < (u.bandwidth p).toInt := by rwa [hbu]
    refine ⟨hpos', refill_refills hpos' hneg (by rw [hbu, ← hgs]; exact hend), ?_⟩
    unfold reschedule
    dsimp only
    rw [if_neg (show ¬ (u.schk (u.inst p).sched).link.bandwidth.toInt ≤ 0 from not_le.2 hpos')]
    rfl

/-- **Every service wakes up in time**, in every run whose requests for links have no negative
bandwidth. The service may be in the middle of a call of `dummynet_io` or of the timer: `s` has the
schedulers of `s₀`, and any instances. -/
theorem Dn.ReachBy.wakesUp (h : Dn.ReachBy NonnegBandwidth parms schedlist s₀) (hs : Fixed s₀ s)
    (p : SiPtr) (now : BitVec 64) (hfits : s.ServeFits p now) : s.WakesUp p now := by
  refine wakesUp_of_nonneg ?_ hfits
  have hkeeps : s₀.Keeps (fun bw => 0 ≤ bw.toInt) (fun _ => True) := by
    refine h.holds (by decide) fun s o _ ho => ?_
    cases o with
    | link p => exact ho
    | profile pf => exact fun _ _ _ => trivial
    | _ => exact trivial
  exact (hs.holds hkeeps).link _

/-- The FIFO scheduler 1 and its link. -/
def linked (parms : DnParms) (bw : BitVec 32) : Option Dn := do
  let (_, s) ← configSched (Dn.init parms [.fifo, .wf2qp, .rr]) (schedOne 1)
  let (_, t) ← configLink s { linkOne with bandwidth := bw }
  pure t

theorem linked_reach {bw : BitVec 32} (hbw : 0 ≤ bw.toInt) (h : linked parms bw = some s) :
    Dn.ReachBy NonnegBandwidth parms [.fifo, .wf2qp, .rr] s := by
  obtain ⟨⟨err, u⟩, hu, h⟩ := Option.bind_eq_some_iff.1 h
  obtain ⟨⟨err', v⟩, hv, h⟩ := Option.bind_eq_some_iff.1 h
  obtain rfl := Option.some.inj h
  have hreach : Dn.ReachBy NonnegBandwidth parms [.fifo, .wf2qp, .rr] u :=
    .object (o := .sch (schedOne 1)) .init trivial hu
  exact .object (o := .link { linkOne with bandwidth := bw }) hreach hbw hv

theorem linked_reach_any {bw : BitVec 32} (h : linked parms bw = some s) :
    Dn.Reach parms [.fifo, .wf2qp, .rr] s := by
  obtain ⟨⟨err, u⟩, hu, h⟩ := Option.bind_eq_some_iff.1 h
  obtain ⟨⟨err', v⟩, hv, h⟩ := Option.bind_eq_some_iff.1 h
  obtain rfl := Option.some.inj h
  exact .object (o := .link { linkOne with bandwidth := bw })
    (.object (o := .sch (schedOne 1)) .init hu) hv

/-- A packet of 100 bytes. -/
def hundred : Mbuf := ⟨1, 100, Mbuf.lt_100⟩

/-- An instance of the scheduler with the packet in its queue. -/
def waiting (sp : SchkPtr) : SchInst :=
  { SchInst.zero .fifo with
    sched := sp
    s := { (SchInst.zero .fifo).s with
      queue := Function.update (fun _ => {}) fifoQueue { mq := [hundred] } } }

/-- With one megabit the packet is paid back in time. -/
theorem wakesUp_waiting : ∃ s sp, linked {} 1000000 = some s ∧ s.findSched 1 = some sp ∧
    (s.setInst 7 (waiting sp)).WakesUp 7 1 := by
  have hexec : (linked {} 1000000).any (fun s => (s.findSched 1).any fun sp =>
      decide ((s.schk sp).link.bandwidth = 1000000 ∧ (s.schk sp).profile.isNone ∧
        s.parms.hz = 1000)) = true := by decide +kernel
  obtain ⟨s, hs, hany⟩ := (Option.any_eq_true _ _).1 hexec
  obtain ⟨sp, hsp, hall⟩ := (Option.any_eq_true _ _).1 hany
  obtain ⟨hbw, hprof, hhz⟩ := of_decide_eq_true hall
  have hreach := linked_reach (by decide) hs
  have hfixed : Fixed s (s.setInst 7 (waiting sp)) := .of_eq rfl
  refine ⟨s, sp, hs, hsp, Dn.ReachBy.wakesUp hreach hfixed 7 1 ?_⟩
  have hself : (s.setInst 7 (waiting sp)).inst 7 = waiting sp := s.setInst_inst 7 _
  have hband : (s.setInst 7 (waiting sp)).bandwidth 7 = 1000000 := by
    unfold Dn.bandwidth
    rw [hself]
    exact hbw
  have hgrant : (s.setInst 7 (waiting sp)).granted 7 1 = 1000000 := by
    unfold Dn.granted
    rw [hband, hself]
    change (0 : BitVec 64).toInt + ((1 - 0 : BitVec 64).toNat : ℤ) * (1000000 : BitVec 32).toInt = _
    decide
  have hprice : ∀ r, (s.setInst 7 (waiting sp)).price 7 hundred r = 800000 := by
    intro r
    unfold Dn.price bitsFor
    rw [hself, hband]
    change BitVec.ofNat 64 s.parms.hz * (_ + match (s.schk sp).profile with
      | none => 0
      | some pf => _) = _
    rw [Option.isNone_iff_eq_none.1 hprof, hhz]
    rfl
  intro _
  rw [hgrant, hband, hself]
  refine ⟨by decide, 0, le_rfl, by rw [mul_zero]; decide, fun q m hm r => ?_⟩
  have hm' : m = hundred := by
    change m ∈ (Function.update (fun _ => ({} : DnQueue)) fifoQueue { mq := [hundred] } q).mq at hm
    rcases eq_or_ne q fifoQueue with rfl | hne
    · rw [Function.update_self] at hm
      exact List.mem_singleton.1 hm
    · rw [Function.update_of_ne hne] at hm
      exact absurd hm List.not_mem_nil
  rw [hm', hprice]
  decide

/-- The first packet for the scheduler, up to the call of `serve_sched`: the state after the
configuration, the one at the call, and the instance. -/
def firstPacket (parms : DnParms) (bw : BitVec 32) : Option (Dn × Dn × SiPtr) := do
  let s ← linked parms bw
  let sp ← s.findSched 1
  let fp ← s.findFs (1 + dnMaxId)
  let (w, t) ← locateQueue s fp sp {}
  let w ← w
  let (_, t) ← t.callback w.si fun k x => k.desc.enqueue x w.q hundred t.env.draws
  pure (s, initialAllowance t w.si sp, w.si)

theorem firstPacket_spec {bw : BitVec 32} (h : firstPacket parms bw = some (s₀, s, p)) :
    Dn.Reach parms [.fifo, .wf2qp, .rr] s₀ ∧ Fixed s₀ s := by
  obtain ⟨s', hs', h⟩ := Option.bind_eq_some_iff.1 h
  obtain ⟨sp, -, h⟩ := Option.bind_eq_some_iff.1 h
  obtain ⟨fp, -, h⟩ := Option.bind_eq_some_iff.1 h
  obtain ⟨⟨w, t⟩, ht, h⟩ := Option.bind_eq_some_iff.1 h
  obtain ⟨w', -, h⟩ := Option.bind_eq_some_iff.1 h
  obtain ⟨⟨b, u⟩, hu, h⟩ := Option.bind_eq_some_iff.1 h
  obtain ⟨rfl, he⟩ := Prod.mk.inj (Option.some.inj h)
  obtain ⟨rfl, rfl⟩ := Prod.mk.inj he
  refine ⟨linked_reach_any hs', (locateQueue_fixed ht).trans ((callback_fixed hu).then ?_)⟩
  unfold initialAllowance
  dsimp only
  by_cases hidle : (u.inst w'.si).idleTime.ult u.currTime = true
  · rw [if_pos hidle]
    rfl
  · rw [if_neg hidle]

/-- With a negative bandwidth the packet costs credit, and the assertion on the bandwidth fails. -/
theorem not_wakesUp : ¬ ∀ (parms : DnParms) (schedlist : List SchedType) (s₀ s : Dn),
    Dn.Reach parms schedlist s₀ → Fixed s₀ s → ∀ p now, s.WakesUp p now := by
  intro h
  have hexec : (firstPacket {} (-1)).any (fun x =>
      (serveLoop (((grantCredit x.2.1 x.2.2 0).inst x.2.2).pkts + 1)
        (grantCredit x.2.1 x.2.2 0) x.2.2 false).any fun out =>
        decide ((out.2.2.inst x.2.2).credit.toInt < 0 ∧
          ¬ 0 < (out.2.2.bandwidth x.2.2).toInt)) = true := by decide +kernel
  obtain ⟨⟨s₀, s, p⟩, hfirst, hany⟩ := (Option.any_eq_true _ _).1 hexec
  obtain ⟨⟨done, last, u⟩, hloop, hall⟩ := (Option.any_eq_true _ _).1 hany
  obtain ⟨hneg, hbw⟩ := of_decide_eq_true hall
  obtain ⟨hreach, hfixed⟩ := firstPacket_spec hfirst
  exact hbw (h _ _ s₀ s hreach hfixed p 0 done last u hloop hneg).1

end Dummynet
