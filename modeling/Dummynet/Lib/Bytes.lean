import Mathlib

/-!
# 16-bit fields of a sequence of bytes

A machine that stores the low byte of a word first reads and writes the fields of a header in memory.

## Main definitions

* `Bytes.load16`, `Bytes.store16`: the field at an address.
* `Bytes.swap16`: the bytes of the field exchanged.

## Main results

* `Bytes.store16_reverse`: a store of the exchanged value exchanges the bytes.
* `Bytes.swap16_swap16`, `Bytes.swap16_comm`.
-/

/-- The bytes in memory from some address on. -/
abbrev Bytes : Type := ℕ → BitVec 8

namespace Bytes

variable {b : Bytes} {i j : ℕ}

/-- The field at `i`. -/
def load16 (b : Bytes) (i : ℕ) : BitVec 16 := b (i + 1) ++ b i

/-- Stores `x` in the field at `i`. -/
def store16 (b : Bytes) (i : ℕ) (x : BitVec 16) : Bytes :=
  Function.update (Function.update b i (x.extractLsb' 0 8)) (i + 1) (x.extractLsb' 8 8)

/-- Exchanges the bytes of the field at `i`. -/
def swap16 (b : Bytes) (i : ℕ) : Bytes := fun j => b (Equiv.swap i (i + 1) j)

theorem extract_append_low (x y : BitVec 8) : (x ++ y : BitVec 16).extractLsb' 0 8 = y := by
  ext n hn
  rw [BitVec.getElem_extractLsb', BitVec.getLsbD_append]
  simp [hn]

theorem extract_append_high (x y : BitVec 8) : (x ++ y : BitVec 16).extractLsb' 8 8 = x := by
  ext n hn
  rw [BitVec.getElem_extractLsb', BitVec.getLsbD_append]
  simp [hn]

theorem store16_reverse :
    store16 b i ((load16 b i).extractLsb' 0 8 ++ (load16 b i).extractLsb' 8 8) = swap16 b i := by
  unfold store16 load16 swap16
  rw [extract_append_low, extract_append_high, extract_append_low, extract_append_high]
  funext j
  rcases eq_or_ne j (i + 1) with rfl | hhigh
  · rw [Function.update_self, Equiv.swap_apply_right]
  · rw [Function.update_of_ne hhigh]
    rcases eq_or_ne j i with rfl | hlow
    · rw [Function.update_self, Equiv.swap_apply_left]
    · rw [Function.update_of_ne hlow, Equiv.swap_apply_of_ne_of_ne hlow hhigh]

/-- The other bytes are as they were. -/
theorem swap16_of_ne (h : j ≠ i) (h' : j ≠ i + 1) : swap16 b i j = b j := by
  unfold swap16
  rw [Equiv.swap_apply_of_ne_of_ne h h']

theorem swap16_swap16 : swap16 (swap16 b i) i = b := by
  funext n
  unfold swap16
  rw [Equiv.swap_apply_self]

/-- Fields that do not overlap. -/
theorem swap16_comm (h : i + 1 < j) : swap16 (swap16 b i) j = swap16 (swap16 b j) i := by
  have hlow : Equiv.swap j (j + 1) i = i :=
    Equiv.swap_apply_of_ne_of_ne (by omega) (by omega)
  have hhigh : Equiv.swap j (j + 1) (i + 1) = i + 1 :=
    Equiv.swap_apply_of_ne_of_ne (by omega) (by omega)
  funext n
  unfold swap16
  rcases eq_or_ne n i with rfl | hn
  · rw [hlow, Equiv.swap_apply_left, hhigh]
  rcases eq_or_ne n (i + 1) with rfl | hn'
  · rw [hhigh, Equiv.swap_apply_right, hlow]
  rw [Equiv.swap_apply_of_ne_of_ne hn hn']
  refine congrArg b (Equiv.swap_apply_of_ne_of_ne (fun h' => hn ?_) fun h' => hn' ?_)
  · rw [← hlow, ← h', Equiv.swap_apply_self]
  · rw [← hhigh, ← h', Equiv.swap_apply_self]

end Bytes
