import Dummynet.Lib.Bits

/-!
# Bitmaps

The macros `test_bit`, `__set_bit` and `__clear_bit` that the schedulers define for themselves.
A bitmap is an `unsigned long` of 64 bits, but the shift `1 << ix` is one of an `int`: it is
undefined for `ix` from 32 on, and at 31 its sign fills the upper half of the bitmap.

## Main definitions

* `testBit`, `setBit`, `clearBit`: the macros, with the result `none` where the shift is undefined.

## Main results

* `setBit_spec`, `clearBit_spec`: below 31 they do what their names say.
-/

namespace Dummynet

/-- `1 << ix` as `unsigned long`: the shift is one of an `int`, and undefined from 32 on. -/
def intBit (ix : ℤ) : Option (BitVec 64) :=
  if 0 ≤ ix ∧ ix < 32 then some ((BitVec.twoPow 32 ix.toNat).signExtend 64) else none

/-- `test_bit`. -/
def testBit (ix : ℤ) (data : BitVec 64) : Option Bool :=
  (intBit ix).map fun b => data &&& b ≠ 0

/-- `__set_bit`. -/
def setBit (ix : ℤ) (data : BitVec 64) : Option (BitVec 64) := (intBit ix).map fun b => data ||| b

/-- `__clear_bit`. -/
def clearBit (ix : ℤ) (data : BitVec 64) : Option (BitVec 64) :=
  (intBit ix).map fun b => data &&& ~~~ b

theorem intBit_of_lt {ix : ℕ} (h : ix < 32) :
    intBit ix = some ((BitVec.twoPow 32 ix).signExtend 64) := by
  rw [intBit, if_pos ⟨by omega, by omega⟩, Int.toNat_natCast]

theorem getLsbD_signExtend_of_lt (b : BitVec 32) {i : ℕ} (hi : i < 32) :
    (b.signExtend 64).getLsbD i = b.getLsbD i := by
  rw [BitVec.getLsbD_signExtend, if_pos hi, decide_eq_true (show i < 64 by omega), Bool.true_and]

/-- Below the sign the bit is the right one. -/
theorem intBit_of_lt_sign {ix : ℕ} (h : ix < 31) : intBit ix = some (BitVec.twoPow 64 ix) := by
  rw [intBit_of_lt (by omega)]
  congr 1
  refine BitVec.eq_of_getLsbD_eq fun i hi => ?_
  have hmsb : (BitVec.twoPow 32 ix).msb = false := by
    rw [BitVec.msb_twoPow]
    simp
    omega
  rw [BitVec.signExtend_eq_setWidth_of_msb_false hmsb, BitVec.getLsbD_setWidth,
    BitVec.getLsbD_twoPow, BitVec.getLsbD_twoPow]
  simp only [hi, decide_true, Bool.true_and]
  by_cases he : ix = i
  · simp [he]
    omega
  · simp [he]

/-- **Setting a bit** below the sign. -/
theorem setBit_spec {ix : ℕ} (h : ix < 31) (data : BitVec 64) :
    ∃ b, setBit ix data = some b ∧ ∀ i, b.getLsbD i = (data.getLsbD i || decide (ix = i)) :=
  ⟨_, by rw [setBit, intBit_of_lt_sign h]; rfl, Bits.getLsbD_set data (by omega)⟩

/-- **Clearing a bit** below the sign. -/
theorem clearBit_spec {ix : ℕ} (h : ix < 31) (data : BitVec 64) :
    ∃ b, clearBit ix data = some b ∧ ∀ i, b.getLsbD i = (data.getLsbD i && decide (ix ≠ i)) := by
  refine ⟨_, by rw [clearBit, intBit_of_lt_sign h]; rfl, fun i => ?_⟩
  by_cases hi : i < 64
  · exact Bits.getLsbD_clear data ix hi
  · rw [BitVec.getLsbD_of_ge _ _ (by omega), BitVec.getLsbD_of_ge _ _ (by omega), Bool.false_and]

end Dummynet
