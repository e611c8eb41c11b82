import Dummynet.System.Order

/-!
# The size of a queue

A queue that is measured in packets never holds more of them than its flowset allows, whichever
scheduler it belongs to and whatever is configured in between, as long as the size in the flowset
stays within a bound.

## Main definitions

* `Dn.Bounds`: the flowset of a queue allows at most so many packets.

## Main results

* `dnEnqueue_room`: a packet is accepted only if there is room for it.
* `Dn.WellFormed.step_within`: every operation.
* `bounded_of_run`: runs.
-/

namespace Dummynet

variable {s t u : Dn} {p : SiPtr} {q : QPtr} {N : ℕ} {M : Prop} {op : DnOp} {l : List Event}

/-- A packet for a queue that is measured in packets and has no room is dropped. -/
theorem dropReason_room {cfg : DnCfg} {dq : DnQueue} {m : Mbuf} {drop : Bool} {r : Draws}
    (h : (dropReason cfg dq m drop r).1 = false) (hmode : dq.fs.fs.flags &&& dnQsizeBytes = 0) :
    dq.fs.fs.qsize.ule dq.ni.length = false := by
  unfold dropReason at h
  dsimp only at h
  split_ifs at h
  all_goals first
    | exact absurd hmode ‹_›
    | exact h

/-- **`dn_enqueue`** accepts a packet for a queue that is measured in packets only if it holds fewer
than its flowset allows. -/
theorem dnEnqueue_room {cfg : DnCfg} {ni : DnFlow} {dq : DnQueue} {m : Mbuf} {drop : Bool}
    {r : Draws} (h : (dnEnqueue cfg ni dq m drop r).1 = false)
    (hmode : dq.fs.fs.flags &&& dnQsizeBytes = 0) : dq.ni.length.toNat < dq.fs.fs.qsize.toNat := by
  have hreason : (dropReason cfg { dq with ni := countPkt dq.ni m } m drop r).1 = false := by
    unfold dnEnqueue at h
    split_ifs at h with hsi
    dsimp only at h
    split_ifs at h with hdrop
    simpa using hdrop
  have hule : dq.fs.fs.qsize.ule dq.ni.length = false := dropReason_room hreason hmode
  have hlt : ¬ dq.fs.fs.qsize ≤ dq.ni.length := by
    rw [← BitVec.ule_iff_le, hule]
    simp
  rw [BitVec.le_def] at hlt
  omega

/-- The flowset of the queue `q` of `p` measures it in packets, and allows at most `N`. -/
def Dn.Bounds (s : Dn) (p : SiPtr) (q : QPtr) (N : ℕ) : Prop :=
  (s.fsOf ((s.inst p).qfs q)).fs.flags &&& dnQsizeBytes = 0 ∧
    (s.fsOf ((s.inst p).qfs q)).fs.qsize.toNat ≤ N

instance (s : Dn) (p : SiPtr) (q : QPtr) (N : ℕ) : Decidable (s.Bounds p q N) :=
  inferInstanceAs (Decidable (_ ∧ _))

/-- The flowset of a queue is the same, with the same data. -/
theorem Dn.Bounds.congr (h : t.Bounds p q N) (hdata : ∀ fp, (t.fsk fp).data = (s.fsk fp).data)
    (hfs : (t.inst p).qfs q = (s.inst p).qfs q) : s.Bounds p q N := by
  have hsame : t.fsOf ((t.inst p).qfs q) = s.fsOf ((s.inst p).qfs q) := by
    rw [hfs]
    unfold Dn.fsOf
    cases (s.inst p).qfs q with
    | none => rfl
    | some fp => exact hdata fp
  rw [Dn.Bounds, ← hsame]
  exact h

/-- A queue that accepts a packet is not full. -/
theorem Dn.Bounds.room {m : Mbuf} {d : Draws} (h : s.Bounds p q N)
    (hcount : ((s.inst p).s.queue q).Counted) (hlen : ((s.inst p).s.mq q).length < 2 ^ 32)
    (hroom : ((s.load (s.inst p)).enqueue q m false d).1 = false) :
    ((s.inst p).s.mq q).length < N := by
  have hcall : (dnEnqueue s.cfg (s.inst p).s.ni ((s.load (s.inst p)).queue q) m false d).1 =
      false := hroom
  have hlt : ((s.inst p).s.queue q).ni.length.toNat <
      (s.fsOf ((s.inst p).qfs q)).fs.qsize.toNat := dnEnqueue_room hcall h.1
  have hnat : ((s.inst p).s.queue q).ni.length.toNat = ((s.inst p).s.mq q).length := by
    rw [hcount, BitVec.toNat_ofNat]
    exact Nat.mod_eq_of_lt hlen
  rw [hnat] at hlt
  exact hlt.trans_le h.2

/-- **An arrival.** -/
theorem dummynetIo_within {F : Set FskPtr} {S : Set SchkPtr} {a : IoArgs} {r : IoResult}
    (hg : Graph F S none s) (hm : ¬ s.Holds a.m.ptr) (h : dummynetIo s a = some (r, t))
    (hp : p ∈ t.sis) (hq : q ∈ (t.inst p).queues) (hN : t.Bounds p q N)
    (hlen : (s.queueOf p q).length < 2 ^ 32) :
    (t.queueOf p q).length ≤ max (s.queueOf p q).length N := by
  obtain ⟨u, hgu, -, -, -, -, -, hcases⟩ := dummynetIo_spec hg h
  have hend : t.queueOf p q = (t.inst p).s.mq q := if_pos hp
  rcases hcases with ⟨o, hdrop⟩ | ⟨fp, sp, w, -, -, hpw, hqw, -, -, henq⟩
  · have hlater : Path laterMoves u t := (dropIt_goes (A := {.note}) hgu.graph rfl hdrop).path.mono
      (by rintro _ rfl; simp [laterMoves])
    obtain ⟨l, -, hin⟩ := hlater.keepsOrder (p := p) (q := q)
    obtain ⟨hpu, -, -, -, c, -, -, heq⟩ := hin hp hq
    have hstart : (u.inst p).s.mq q = s.queueOf p q := by
      rw [← hgu.path.queueOf p q]
      exact (if_pos hpu).symm
    rw [hstart, List.append_nil] at heq
    rw [hend, heq, List.length_append]
    omega
  · have hqueued := hgu.path.not_queued fun p hp q hin => hm ⟨p, hp, .inl ⟨q, hin⟩⟩
    have hhead := not_isHead (hqueued _ hpw w.q)
    obtain ⟨drop, x, hcall, -, hgo, hkept⟩ := ioEnqueue_goes hgu.graph hpw hqw hhead henq
    have hlater : Path laterMoves x t := hgo.path.mono (by
      rintro k (rfl | hk)
      · simp [laterMoves]
      · exact serveMoves_later hk)
    obtain ⟨new, hsub, hin, hroom⟩ := InOrder.enqueue (p := p) (q := q) hqw
      (hgu.graph.sound_load hpw) hhead hcall
    obtain ⟨l, -, hboth⟩ := hin.trans hlater.keepsOrder
    obtain ⟨hpu, -, -, hfs, c, -, -, heq⟩ := hboth hp hq
    have hstart : (u.inst p).s.mq q = s.queueOf p q := by
      rw [← hgu.path.queueOf p q]
      exact (if_pos hpu).symm
    have hnew : new.length ≤ 1 := hsub.length_le
    have hsum := congrArg List.length heq
    simp only [List.append_nil, List.length_append] at hsum
    rw [← hend, hstart] at hsum
    rcases hroom with rfl | ⟨rfl, hroom⟩
    · simp only [List.length_nil] at hsum
      omega
    · have hbound : u.Bounds w.si q N := hN.congr hkept.data hfs
      have hlt := hbound.room ((hgu.graph.sound _ hpu).counted q) (hstart ▸ hlen) hroom
      rw [hstart] at hlt
      omega

/-- **One operation.** A queue grows only within the size that its flowset allows. -/
theorem Dn.WellFormed.step_within (h : s.WellFormed M) (hnew : op.NewTo s)
    (hs : s.step op = some (l, t)) (hp : p ∈ t.sis) (hq : q ∈ (t.inst p).queues)
    (hN : t.Bounds p q N) (hlen : (s.queueOf p q).length < 2 ^ 32) :
    (t.queueOf p q).length ≤ max (s.queueOf p q).length N := by
  have hquiet : op.packet = [] → (t.queueOf p q).length ≤ max (s.queueOf p q).length N :=
    fun hnone => by
      obtain ⟨new, c, hsub, -, -, heq⟩ := h.step_order hnew hs hp hq
      rw [hnone, List.sublist_nil] at hsub
      rw [hsub, List.append_nil] at heq
      rw [heq, List.length_append]
      omega
  cases op with
  | io a env =>
    obtain ⟨v, hv, he⟩ := Option.map_eq_some_iff.1 hs
    obtain ⟨-, rfl⟩ := Prod.mk.inj he
    obtain ⟨⟨F, S, hg, -⟩, -⟩ := h
    obtain ⟨⟨r, w⟩, hw, rfl⟩ := Option.map_eq_some_iff.1 hv
    have hg₀ : Graph F S none { s with log := [], env := env } := hg.withEnv
    exact dummynetIo_within (s := { s with log := [], env := env }) hg₀ hnew hw hp hq hN hlen
  | _ => exact hquiet rfl

/-- **No queue is larger than its flowset allows.** In a run after whose steps the queue `q` of `p`
exists, and its flowset measures it in packets and allows at most `N`, it holds at most `N`. -/
theorem bounded_of_run {parms : DnParms} {schedlist : List SchedType}
    {l l' : List (DnOp × List Event)}
    (h : Runs.Run Dn.step (fun s op _ => op.NewTo s) (Dn.init parms schedlist) l s)
    (h' : Runs.Run Dn.step (fun s op t => op.NewTo s ∧ p ∈ t.sis ∧ q ∈ (t.inst p).queues ∧
      t.Bounds p q N) s l' t)
    (hN : N < 2 ^ 32) (hs : (s.queueOf p q).length ≤ N) : (t.queueOf p q).length ≤ N := by
  induction h' with
  | nil => exact hs
  | @snoc t u l' op o hr hok hst ih =>
    have hwf : t.WellFormed False :=
      wellFormed_of_run ((h.trans (hr.mono fun _ _ _ hok => hok.1)).mono
        fun _ _ _ hok => ⟨hok, fun h => h.elim⟩)
    have hstep := hwf.step_within hok.1 hst hok.2.1 hok.2.2.1 hok.2.2.2 (by omega)
    omega

/-- A packet that is in no queue and on no delay line is a new one. -/
theorem Dn.WellFormed.not_holds {n : ℕ} (h : s.WellFormed M)
    (hno : ∀ p ∈ s.sis, (∀ q ∈ (s.inst p).queues, n ∉ ((s.inst p).s.mq q).map Mbuf.ptr) ∧
      n ∉ (s.inst p).dline.map fun d => d.m.ptr) : ¬ s.Holds n := by
  obtain ⟨⟨F, S, hg, -⟩, -⟩ := h
  rintro ⟨p, hp, ⟨q, hq⟩ | hd⟩
  · by_cases hmem : q ∈ (s.inst p).queues
    · exact (hno p hp).1 q hmem hq
    · rw [(hg.sound p hp).tidy q hmem] at hq
      exact absurd hq (by simp)
  · exact (hno p hp).2 hd

/-- A scheduler with a link that has no burst. -/
def opSlow : DnOp :=
  .config [.header { len := 12, id := dnApiVersion }, .sch (schedOne 2),
    .link { linkOne with burst := 0 }] (12 + sizeofSch.toNat + sizeofLink.toNat) {}

/-- A long packet. -/
def opLong (n : ℕ) : DnOp := .io { m := ⟨n, 1000, Mbuf.lt_1000⟩, info := 0x08000001 } {}

/-- A configuration and two packets. The second one has to wait. -/
def twoLong : Option (Dn × Dn × Dn) := do
  let (_, s₁) ← (Dn.init {} [.fifo, .wf2qp, .rr]).step opSlow
  let (_, s₂) ← s₁.step (opLong 1)
  let (_, s₃) ← s₂.step (opLong 2)
  pure (s₁, s₂, s₃)

theorem twoLong_runs : ∃ s u l l',
    Runs.Run Dn.step (fun s op _ => op.NewTo s ∧ op.Ample) (Dn.init {} [.fifo, .wf2qp, .rr]) l s ∧
    Runs.Run Dn.step (fun s op t => (op.NewTo s ∧ op.Ample) ∧ 4 ∈ t.sis ∧
      (t.inst 4).kind = .fifo ∧ t.Bounds 4 fifoQueue 50) s l' u ∧
    (s.queueOf 4 fifoQueue).length = 0 ∧ 4 ∈ u.sis ∧ (u.inst 4).kind = .fifo ∧
      (u.queueOf 4 fifoQueue).length = 1 ∧ (u.inst 4).dline.head?.isSome = true := by
  have hexec : twoLong.any (fun x => decide ((x.1.sis = ∅ ∧
        (x.1.queueOf 4 fifoQueue).length = 0) ∧
      (∀ p ∈ x.2.1.sis,
        (∀ q ∈ (x.2.1.inst p).queues, 2 ∉ ((x.2.1.inst p).s.mq q).map Mbuf.ptr) ∧
          2 ∉ (x.2.1.inst p).dline.map fun d => d.m.ptr) ∧
      (4 ∈ x.2.1.sis ∧ (x.2.1.inst 4).kind = .fifo ∧ x.2.1.Bounds 4 fifoQueue 50) ∧
      (4 ∈ x.2.2.sis ∧ (x.2.2.inst 4).kind = .fifo ∧ x.2.2.Bounds 4 fifoQueue 50) ∧
      (x.2.2.queueOf 4 fifoQueue).length = 1 ∧
      (x.2.2.inst 4).dline.head?.isSome = true)) = true := by
    decide +kernel
  obtain ⟨⟨s, t, u⟩, h, hall⟩ := (Option.any_eq_true _ _).1 hexec
  obtain ⟨⟨hs, hstart⟩, hno, ht, hu, hlen, hhead⟩ := of_decide_eq_true hall
  unfold twoLong at h
  obtain ⟨⟨o₁, s₁⟩, h₁, h⟩ := Option.bind_eq_some_iff.1 h
  obtain ⟨⟨o₂, s₂⟩, h₂, h⟩ := Option.bind_eq_some_iff.1 h
  obtain ⟨⟨o₃, s₃⟩, h₃, h⟩ := Option.bind_eq_some_iff.1 h
  obtain ⟨rfl, hrest⟩ := Prod.mk.inj (Option.some.inj h)
  obtain ⟨rfl, rfl⟩ := Prod.mk.inj hrest
  have hslow : opSlow.NewTo (Dn.init {} [.fifo, .wf2qp, .rr]) := trivial
  have hfirst : (opLong 1).NewTo s₁ := fun ⟨p, hp, _⟩ => by
    rw [hs] at hp
    exact Finset.notMem_empty p hp
  have hrun : Runs.Run Dn.step (fun s op _ => op.NewTo s ∧ op.Ample)
      (Dn.init {} [.fifo, .wf2qp, .rr]) [(opSlow, o₁)] s₁ :=
    (Runs.Run.nil _).snoc ⟨hslow, fun _ => rfl⟩ h₁
  have hwf : s₂.WellFormed False :=
    wellFormed_of_run ((hrun.snoc ⟨hfirst, fun _ => rfl⟩ h₂).mono
      fun _ _ _ hok => ⟨hok.1, fun h => h.elim⟩)
  have hsecond : (opLong 2).NewTo s₂ := hwf.not_holds hno
  exact ⟨s₁, s₃, _, _, hrun, ((Runs.Run.nil _).snoc ⟨⟨hfirst, fun _ => rfl⟩, ht⟩ h₂).snoc
    ⟨⟨hsecond, fun _ => rfl⟩, hu⟩ h₃, hstart, hu.1, hu.2.1, hlen, hhead⟩

/-- With a packet in the queue. -/
theorem bounded_twoLong : ∃ s : Dn, s.queueOf 4 fifoQueue ≠ [] ∧
    (s.queueOf 4 fifoQueue).length ≤ 50 := by
  obtain ⟨s, u, l, l', hl, hl', hstart, -, -, hlen, -⟩ := twoLong_runs
  have hqueued : u.queueOf 4 fifoQueue ≠ [] := fun hnil => by simp [hnil] at hlen
  refine ⟨u, hqueued, bounded_of_run (hl.mono fun _ _ _ hok => hok.1)
    (hl'.mono fun _ _ t hok => ⟨hok.1.1, hok.2.1, fifoQueue_mem ?_, hok.2.2.2⟩) (by decide)
    (hstart ▸ Nat.zero_le 50)⟩
  rw [hok.2.2.1]
  rfl

end Dummynet
