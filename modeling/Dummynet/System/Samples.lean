import Dummynet.System.Held
import Dummynet.System.Replace

/-!
# The samples of a profile

A profile has a length in bytes and a number of samples, and `extra_bits` trusts the number: it
draws the index of a sample below it. `config_profile` does not compare the two.

## Main definitions

* `Dn.SamplesInRange`: each index that can be drawn is the one of a stored sample.
* `StoresSamples`: the profile of a request is long enough for the number of samples that it names.

## Main results

* `Dn.ReachBy.samplesInRange`: all indices are in range where the requests store their samples.
-/

namespace Dummynet

variable {s t : Dn} {sp : SchkPtr} {m : Mbuf} {pf old : DnProfile} {parms : DnParms}
  {schedlist : List SchedType}

/-- The samples that the memory of a profile has room for. The length of a profile that is attached
is the size of its memory: `DnProfile.copied` keeps it. -/
def DnProfile.stored (pf : DnProfile) : ℕ := (pf.oid.len.toNat - sizeofProfile.toNat) / 4

/-- The index that `extra_bits` draws, for a random number. -/
def DnProfile.drawn (pf : DnProfile) (r : ℕ) : ℕ := r % pf.samplesNo.toInt.natAbs

/-- `extra_bits` reads the sample that is drawn. -/
theorem extraBits_drawn (hpf : (s.schk sp).profile = some pf) (hno : pf.samplesNo ≠ 0) :
    (extraBits s m sp).1 =
      ((pf.samples (pf.drawn s.random.1)).signExtend 64 *
        (s.schk sp).link.bandwidth.signExtend 64).sdiv 1000 := by
  unfold extraBits
  rw [hpf]
  dsimp only
  rw [if_neg hno]
  split_ifs <;> rfl

/-- The number of samples is not negative, and each index that can be drawn is the one of a sample
that is stored. -/
structure DnProfile.Ranged (pf : DnProfile) : Prop where
  nonneg : 0 ≤ pf.samplesNo.toInt
  drawn : pf.samplesNo ≠ 0 → ∀ r, pf.drawn r < pf.stored

/-- All attached profiles are in range. -/
def Dn.SamplesInRange (s : Dn) : Prop :=
  ∀ sp pf, (s.schk sp).profile = some pf → pf.Ranged

/-- A request for a profile names no more samples than there are in the memory that it is copied to:
the ones that it brings, or the ones of a longer profile that is there. -/
def StoresSamples (s : Dn) : DnObj → Prop
  | .profile pf => pf.samplesNo ≠ 0 → 0 ≤ pf.samplesNo.toInt ∧
      ∀ sp, s.schedNr sp = pf.linkNr ∨ s.schedNr sp = pf.linkNr + dnMaxId →
        pf.samplesNo.toNat ≤ (max pf.oid.len.toNat
          (((s.schk sp).profile.map fun old => old.oid.len.toNat).getD 0) - sizeofProfile.toNat) / 4
  | _ => True

/-- The number of samples decides. -/
theorem DnProfile.ranged_iff : pf.Ranged ↔
    0 ≤ pf.samplesNo.toInt ∧ pf.samplesNo.toNat ≤ pf.stored := by
  have habs : 0 ≤ pf.samplesNo.toInt → pf.samplesNo.toInt.natAbs = pf.samplesNo.toNat := by
    intro hnonneg
    rw [BitVec.toInt_eq_toNat_cond] at hnonneg ⊢
    split_ifs at hnonneg ⊢ <;> omega
  refine ⟨fun ⟨hnonneg, hdrawn⟩ => ⟨hnonneg, ?_⟩, fun ⟨hnonneg, hle⟩ => ⟨hnonneg, fun hno r => ?_⟩⟩
  · by_cases hno : pf.samplesNo = 0
    · rw [hno]
      exact Nat.zero_le _
    · -- the last index can be drawn
      have hlast := hdrawn hno (pf.samplesNo.toNat - 1)
      have hpos : 0 < pf.samplesNo.toNat := Nat.pos_of_ne_zero fun h =>
        hno (BitVec.eq_of_toNat_eq h)
      unfold DnProfile.drawn at hlast
      rw [habs hnonneg, Nat.mod_eq_of_lt (by omega)] at hlast
      omega
  · have hpos : 0 < pf.samplesNo.toNat := Nat.pos_of_ne_zero fun h =>
      hno (BitVec.eq_of_toNat_eq h)
    unfold DnProfile.drawn
    rw [habs hnonneg]
    exact (Nat.mod_lt _ hpos).trans_le hle

/-- The memory that a profile is copied to is as long as the longer one. -/
theorem DnProfile.copied_len (pf : DnProfile) (o : Option DnProfile) :
    (pf.copied (pf.under o)).oid.len.toNat =
      max pf.oid.len.toNat ((o.map fun old => old.oid.len.toNat).getD 0) := by
  have hlen : ∀ old : DnProfile, (pf.copied old).oid.len.toNat =
      max pf.oid.len.toNat old.oid.len.toNat := by
    intro old
    unfold DnProfile.copied
    dsimp only
    by_cases hlt : old.oid.len.ult pf.oid.len = true
    · rw [if_pos hlt]
      exact (max_eq_left (BitVec.lt_def.1 (BitVec.ult_iff_lt.1 hlt)).le).symm
    · rw [if_neg hlt]
      exact (max_eq_right (not_lt.1 fun h => hlt (BitVec.ult_iff_lt.2 (BitVec.lt_def.2 h)))).symm
  rw [hlen]
  unfold DnProfile.under
  rcases o with _ | old
  · rfl
  by_cases hlt : old.oid.len.ult pf.oid.len = true
  · -- the old one is shorter, and goes
    rw [Option.filter_some_neg (by simp [hlt])]
    have hle := (BitVec.lt_def.1 (BitVec.ult_iff_lt.1 hlt)).le
    exact (max_eq_left (Nat.zero_le _)).trans (max_eq_left hle).symm
  · rw [Option.filter_some_pos (by simp [hlt])]
    rfl

/-- **The samples are in range** in every run whose requests store them. -/
theorem Dn.ReachBy.samplesInRange (h : Dn.ReachBy StoresSamples parms schedlist s) :
    s.SamplesInRange := by
  refine (h.holds (B := fun _ => True) (Q := DnProfile.Ranged) trivial fun s o _ ho => ?_).profile
  cases o with
  | profile pf =>
    intro hno sp hsp
    obtain ⟨hnonneg, hle⟩ := ho hno
    refine DnProfile.ranged_iff.2 ⟨hnonneg, ?_⟩
    unfold DnProfile.stored
    rw [DnProfile.copied_len]
    exact hle sp hsp
  | link _ => exact trivial
  | _ => exact trivial

/-- Scheduler 1 gets a profile with one sample. -/
theorem samplesInRange_one : profiled.SamplesInRange := by
  have hsome : (configSched (Dn.init {} [.fifo, .wf2qp, .rr]) (schedOne 2)).isSome := by
    decide +kernel
  obtain ⟨⟨err, s⟩, hs⟩ := Option.isSome_iff_exists.1 hsome
  have hstart : Dn.ReachBy StoresSamples {} [.fifo, .wf2qp, .rr] s :=
    .object (o := .sch (schedOne 2)) .init trivial hs
  have hreach : Dn.ReachBy StoresSamples {} [.fifo, .wf2qp, .rr] profiled := by
    unfold profiled
    rw [hs]
    refine .object (o := .profile profileOne) hstart (fun _ => ⟨by decide, fun sp _ => ?_⟩) rfl
    have hone : profileOne.samplesNo.toNat =
        (profileOne.oid.len.toNat - sizeofProfile.toNat) / 4 := by decide
    rw [hone]
    exact Nat.div_le_div_right (Nat.sub_le_sub_right (le_max_left _ _) _)
  exact Dn.ReachBy.samplesInRange hreach

/-- The profile of a request for link 1 that brings one sample and says two. -/
def profileTwo : DnProfile := { profileOne with samplesNo := 2 }

/-- The request is accepted, and `extra_bits` may draw the sample behind the last one. -/
theorem not_samplesInRange : ¬ ∀ (parms : DnParms) (schedlist : List SchedType) (s : Dn),
    Dn.Reach parms schedlist s → s.SamplesInRange := by
  intro h
  have hsome : (configSched (Dn.init {} [.fifo, .wf2qp, .rr]) (schedOne 2)).isSome := by
    decide +kernel
  obtain ⟨⟨err, s⟩, hs⟩ := Option.isSome_iff_exists.1 hsome
  have hreach : Dn.Reach {} [.fifo, .wf2qp, .rr] (configProfile s profileTwo).2 :=
    .object (o := .profile profileTwo) (.object (o := .sch (schedOne 2)) .init hs) rfl
  have hrun : ((configSched (Dn.init {} [.fifo, .wf2qp, .rr]) (schedOne 2)).any fun out =>
      ((out.2.findSched 1).any fun sp =>
        (((configProfile out.2 profileTwo).2.schk sp).profile.any fun pf =>
          decide (pf.samplesNo = 2 ∧ pf.stored ≤ pf.drawn 1)))) = true := by decide +kernel
  rw [hs, Option.any_some] at hrun
  obtain ⟨sp, -, hany⟩ := (Option.any_eq_true _ _).1 hrun
  obtain ⟨pf, hpf, hbad⟩ := (Option.any_eq_true _ _).1 hany
  obtain ⟨htwo, hle⟩ := of_decide_eq_true hbad
  have hranged := h _ _ _ hreach sp pf hpf
  exact absurd (hranged.drawn (by rw [htwo]; decide) 1) (not_lt.2 hle)

end Dummynet
