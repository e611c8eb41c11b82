import Dummynet.Qfq.Model

/-!
# The group of a QFQ class

`qfq_calc_index` chooses the group by the product of the inverse weight and the maximum length,
the virtual time that one packet of the class takes at most. The groups' slots double in size, and
the class is in the first group with slots of at least that time.

## Main results

* `qfqCalcIndex_isLeast`: the group is the first one with large enough slots.
* `qfqCalcIndex_spec`: the group exists, and its slots are less than twice as large as needed.
-/

namespace Dummynet

/-- The maximum virtual duration of a packet, as the number that the source computes with 64
bits. -/
theorem slotSize_toNat (invW maxlen : BitVec 32) :
    (maxlen.setWidth 64 * invW.setWidth 64).toNat = maxlen.toNat * invW.toNat := by
  have hw := invW.isLt
  have hm := maxlen.isLt
  have hle : maxlen.toNat * invW.toNat < 2 ^ 64 :=
    calc maxlen.toNat * invW.toNat < 2 ^ 32 * 2 ^ 32 := Nat.mul_lt_mul'' hm hw
      _ = 2 ^ 64 := by norm_num
  rw [BitVec.toNat_mul, BitVec.toNat_setWidth, BitVec.toNat_setWidth,
    Nat.mod_eq_of_lt (by omega : maxlen.toNat < 2 ^ 64),
    Nat.mod_eq_of_lt (by omega : invW.toNat < 2 ^ 64), Nat.mod_eq_of_lt hle]

/-- With the values that the scheduler admits the duration has at most 41 bits. -/
theorem slotSize_lt {w m : ℕ} (hw : w ≤ 2 ^ 30) (hm : m ≤ 2000) : m * w < 2 ^ 41 :=
  calc m * w ≤ 2000 * 2 ^ 30 := Nat.mul_le_mul hm hw
    _ < 2 ^ 41 := by norm_num

/-- `qfq_calc_index` on numbers: 0 if the duration fits the smallest slots, otherwise the
logarithm of the duration in such slots, rounded up. -/
theorem qfqCalcIndex_eq {invW maxlen : BitVec 32} (hS : maxlen.toNat * invW.toNat < 2 ^ 41) :
    qfqCalcIndex invW maxlen =
      if maxlen.toNat * invW.toNat / 2 ^ 22 = 0 then 0
      else if maxlen.toNat * invW.toNat = 2 ^ ((maxlen.toNat * invW.toNat / 2 ^ 22).log2 + 22) then
        (maxlen.toNat * invW.toNat / 2 ^ 22).log2
      else (maxlen.toNat * invW.toNat / 2 ^ 22).log2 + 1 := by
  have hsize := slotSize_toNat invW maxlen
  unfold qfqCalcIndex
  generalize maxlen.setWidth 64 * invW.setWidth 64 = slot at hsize ⊢
  generalize maxlen.toNat * invW.toNat = S at hS hsize ⊢
  have hshift : qfqMinSlotShift = 22 := rfl
  have hmap : (slot >>> qfqMinSlotShift).toNat = S / 2 ^ 22 := by
    rw [BitVec.toNat_ushiftRight, hsize, Nat.shiftRight_eq_div_pow, hshift]
  have hlast : Bits.last ((slot >>> qfqMinSlotShift).setWidth 32) = (S / 2 ^ 22).log2 := by
    rw [Bits.last, BitVec.toNat_setWidth, hmap, Nat.mod_eq_of_lt (by omega)]
  simp only [hlast]
  rw [hshift] at hmap ⊢
  by_cases hzero : S / 2 ^ 22 = 0
  · rw [if_pos hzero, if_pos (BitVec.eq_of_toNat_eq (by rw [hmap, hzero]; rfl))]
  · have hne : slot >>> 22 ≠ 0 := fun h => hzero (by rw [← hmap, h]; rfl)
    rw [if_neg hzero, if_neg hne]
    set n := (S / 2 ^ 22).log2 with hn
    have hn19 : n < 19 := (Nat.log2_lt hzero).2 (by omega)
    have hpow : ((1 <<< (n + 22) : ℕ) : BitVec 64).toNat = 2 ^ (n + 22) := by
      have hlt : 2 ^ (n + 22) < 2 ^ 64 := Nat.pow_lt_pow_right (by norm_num) (by omega)
      rw [BitVec.natCast_eq_ofNat, BitVec.toNat_ofNat, Nat.shiftLeft_eq, one_mul,
        Nat.mod_eq_of_lt hlt]
    have hexact : slot - 1 <<< (n + 1 + 22 - 1) = 0 ↔ S = 2 ^ (n + 22) := by
      rw [show n + 1 + 22 - 1 = n + 22 by omega, sub_eq_zero, ← BitVec.toNat_inj, hsize, hpow]
    by_cases hex : S = 2 ^ (n + 22)
    · rw [if_pos hex, if_pos (hexact.2 hex), Nat.add_sub_cancel]
    · rw [if_neg hex, if_neg (fun h => hex (hexact.1 h))]

/-- **The group is the first one with large enough slots.** -/
theorem qfqCalcIndex_isLeast {invW maxlen : BitVec 32}
    (hS : maxlen.toNat * invW.toNat < 2 ^ 41) :
    IsLeast {i | maxlen.toNat * invW.toNat ≤ 2 ^ (qfqMinSlotShift + i)}
      (qfqCalcIndex invW maxlen) := by
  rw [qfqCalcIndex_eq hS]
  generalize maxlen.toNat * invW.toNat = S
  have hmono : ∀ {a b : ℕ}, a ≤ b → 2 ^ a ≤ 2 ^ b := fun h => Nat.pow_le_pow_right (by norm_num) h
  change IsLeast {i | S ≤ 2 ^ (22 + i)} _
  by_cases hzero : S / 2 ^ 22 = 0
  · rw [if_pos hzero]
    exact ⟨show S ≤ 2 ^ (22 + 0) by omega, fun _ _ => Nat.zero_le _⟩
  rw [if_neg hzero]
  set n := (S / 2 ^ 22).log2 with hn
  -- The duration is between two consecutive powers.
  have hlow : 2 ^ (n + 22) ≤ S := by
    have h := (Nat.le_div_iff_mul_le (by norm_num)).1 (Nat.log2_self_le hzero)
    rwa [← hn, ← pow_add] at h
  have hhigh : S < 2 ^ (n + 1 + 22) := by
    have h := (Nat.div_lt_iff_lt_mul (by norm_num)).1 (Nat.lt_log2_self (n := S / 2 ^ 22))
    rwa [← hn, ← pow_add] at h
  by_cases hex : S = 2 ^ (n + 22)
  · rw [if_pos hex]
    refine ⟨show S ≤ 2 ^ (22 + n) by rw [hex, Nat.add_comm], fun i hi => ?_⟩
    have hle : 2 ^ (n + 22) ≤ 2 ^ (22 + i) := hex.symm.le.trans hi
    have := (Nat.pow_le_pow_iff_right (by norm_num)).1 hle
    omega
  · rw [if_neg hex]
    refine ⟨?_, fun i hi => ?_⟩
    · have h : S ≤ 2 ^ (n + 1 + 22) := hhigh.le
      rwa [Nat.add_comm] at h
    · by_contra hlt
      have hle : 2 ^ (22 + i) ≤ 2 ^ (n + 22) := hmono (by omega)
      have hi' : S ≤ 2 ^ (22 + i) := hi
      omega

/-- **The index of the group.** For every inverse weight and maximum length that the scheduler
admits the class goes to the first group whose slots are as large as the maximum virtual duration
of a packet. There is such a group, and behind the first group its slots are less than twice as
large. -/
theorem qfqCalcIndex_spec (invW maxlen : BitVec 32) (hw : invW.toNat ≤ 2 ^ 30)
    (hm : maxlen.toNat ≤ 2000) :
    IsLeast {i | maxlen.toNat * invW.toNat ≤ 2 ^ (qfqMinSlotShift + i)}
        (qfqCalcIndex invW maxlen) ∧
      qfqCalcIndex invW maxlen ≤ qfqMaxIndex ∧
      maxlen.toNat * invW.toNat ≤
        ((1 : BitVec 64) <<< (qfqNewSched.groups (qfqCalcIndex invW maxlen)).slotShift).toNat ∧
      (0 < qfqCalcIndex invW maxlen →
        ((1 : BitVec 64) <<< (qfqNewSched.groups (qfqCalcIndex invW maxlen)).slotShift).toNat <
          2 * (maxlen.toNat * invW.toNat)) := by
  have hS := slotSize_lt hw hm
  have hleast := qfqCalcIndex_isLeast hS
  have hmax : qfqCalcIndex invW maxlen ≤ qfqMaxIndex := hleast.2 hS.le
  generalize qfqCalcIndex invW maxlen = i at hleast hmax ⊢
  have hslot : ((1 : BitVec 64) <<< (qfqNewSched.groups i).slotShift).toNat =
      2 ^ (qfqMinSlotShift + i) := by
    have hshift : (qfqNewSched.groups i).slotShift = qfqMinSlotShift + i := by
      simp only [qfqNewSched, qfqMinSlotShift, qfqFracBits, qfqMtuShift, qfqMaxIndex] at hmax ⊢
      omega
    have hlt : 2 ^ (qfqMinSlotShift + i) < 2 ^ 64 :=
      Nat.pow_lt_pow_right (by norm_num) (by
        simp only [qfqMinSlotShift, qfqFracBits, qfqMtuShift, qfqMaxIndex] at hmax ⊢
        omega)
    rw [hshift, BitVec.toNat_shiftLeft, Nat.shiftLeft_eq]
    simpa using hlt
  rw [hslot]
  refine ⟨hleast, hmax, hleast.1, fun hi => ?_⟩
  -- The slots of the group before are too small.
  have hprev : ¬ maxlen.toNat * invW.toNat ≤ 2 ^ (qfqMinSlotShift + (i - 1)) := fun h => by
    have := hleast.2 h
    omega
  have hdouble : 2 ^ (qfqMinSlotShift + i) = 2 * 2 ^ (qfqMinSlotShift + (i - 1)) := by
    rw [← pow_succ']
    congr 1
    omega
  omega

/-- A class of weight 1 with packets of 1500 bytes is in the last group. -/
theorem qfqCalcIndex_spec_last :
    qfqCalcIndex (BitVec.ofNat 32 (2 ^ 30)) 1500 ≤ qfqMaxIndex ∧
      1500 * 2 ^ 30 ≤ ((1 : BitVec 64) <<<
        (qfqNewSched.groups (qfqCalcIndex (BitVec.ofNat 32 (2 ^ 30)) 1500)).slotShift).toNat :=
  have h := qfqCalcIndex_spec (BitVec.ofNat 32 (2 ^ 30)) 1500 (by decide) (by decide)
  ⟨h.2.1, h.2.2.1⟩

example : qfqCalcIndex (BitVec.ofNat 32 (2 ^ 30)) 1500 = 19 := by decide +kernel

end Dummynet
