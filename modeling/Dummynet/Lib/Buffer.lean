import Mathlib

/-!
# Records in a buffer

Fields of records that stand one behind the other in a buffer. An access outside the buffer has no
result.

## Main definitions

* `Buffer.field`: the number in some bytes of a record, least byte first.
* `Buffer.read`, `Buffer.slice`: reads of a number and of a range of bytes.
* `Buffer.bytesOf`, `Buffer.write`: the bytes of a number, and a write of bytes.
* `Buffer.At`: what stands in the buffer from an address on.

## Main results

* `Buffer.At.read`, `Buffer.At.slice`: a read in the record at an address.
* `Buffer.At.advance`: the address behind the record.
* `Buffer.At.read_bytesOf`: a number is read as it was written.
* `Buffer.write_append`: a write in the middle of a buffer.
-/

namespace Buffer

/-- The number with these bytes, least byte first. -/
def le (bs : List (BitVec 8)) : ℕ := bs.foldr (fun b v => b.toNat + 256 * v) 0

/-- The number in the `n` bytes from an offset on. -/
def field (bs : List (BitVec 8)) (off n : ℕ) : ℕ := le ((bs.drop off).take n)

/-- A read of `n` bytes as a number. -/
def read (bs : List (BitVec 8)) (off n : ℕ) : Option ℕ :=
  if off + n ≤ bs.length then some (field bs off n) else none

/-- A read of `n` bytes. -/
def slice (bs : List (BitVec 8)) (off n : ℕ) : Option (List (BitVec 8)) :=
  if off + n ≤ bs.length then some ((bs.drop off).take n) else none

/-- The first `n` bytes of a number. -/
def bytesOf : ℕ → ℕ → List (BitVec 8)
  | 0, _ => []
  | n + 1, v => BitVec.ofNat 8 v :: bytesOf n (v / 256)

/-- A write of bytes. -/
def write (bs : List (BitVec 8)) (off : ℕ) (new : List (BitVec 8)) : Option (List (BitVec 8)) :=
  if off + new.length ≤ bs.length then some (bs.take off ++ new ++ bs.drop (off + new.length))
  else none

/-- In the buffer the bytes `l` stand from the address `p` on, up to its end. -/
def At (bs : List (BitVec 8)) (p : ℕ) (l : List (BitVec 8)) : Prop :=
  p ≤ bs.length ∧ bs.drop p = l

variable {bs r l : List (BitVec 8)} {p k n : ℕ}

theorem le_lt (bs : List (BitVec 8)) : le bs < 256 ^ bs.length := by
  induction bs with
  | nil => simp [le]
  | cons b bs ih =>
    have hb := b.isLt
    rw [List.length_cons, pow_succ']
    change b.toNat + 256 * le bs < _
    omega

theorem field_lt (bs : List (BitVec 8)) (k n : ℕ) : field bs k n < 256 ^ n :=
  (le_lt _).trans_le (Nat.pow_le_pow_right (by norm_num) (List.length_take_le _ _))

namespace At

theorem start (bs : List (BitVec 8)) : At bs 0 bs := ⟨Nat.zero_le _, rfl⟩

theorem length (h : At bs p l) : p + l.length = bs.length := by
  have := congrArg List.length h.2
  rw [List.length_drop] at this
  have := h.1
  omega

/-- The address behind the record. -/
theorem advance (h : At bs p (r ++ l)) : At bs (p + r.length) l := by
  have hlen := h.length
  rw [List.length_append] at hlen
  refine ⟨by omega, ?_⟩
  rw [← List.drop_drop, h.2, List.drop_left]

private theorem drop_take (h : At bs p (r ++ l)) (hk : k + n ≤ r.length) :
    (bs.drop (p + k)).take n = (r.drop k).take n := by
  rw [← List.drop_drop, h.2, List.drop_append_of_le_length (by omega),
    List.take_append_of_le_length (by rw [List.length_drop]; omega)]

/-- A field of the record is read. -/
theorem read (h : At bs p (r ++ l)) (hk : k + n ≤ r.length) :
    Buffer.read bs (p + k) n = some (field r k n) := by
  have hlen := h.length
  rw [List.length_append] at hlen
  rw [Buffer.read, if_pos (by omega), field, h.drop_take hk, field]

/-- Bytes of the record are read. -/
theorem slice (h : At bs p (r ++ l)) (hk : k + n ≤ r.length) :
    Buffer.slice bs (p + k) n = some ((r.drop k).take n) := by
  have hlen := h.length
  rw [List.length_append] at hlen
  rw [Buffer.slice, if_pos (by omega), h.drop_take hk]

/-- The whole record is read. -/
theorem slice_all (h : At bs p (r ++ l)) : Buffer.slice bs p r.length = some r := by
  have := h.slice (k := 0) (n := r.length) (by omega)
  rwa [List.drop_zero, List.take_length, Nat.add_zero] at this

end At

/-! ### Writes -/

@[simp]
theorem length_bytesOf (n v : ℕ) : (bytesOf n v).length = n := by
  induction n generalizing v with
  | zero => rfl
  | succ n ih => rw [bytesOf, List.length_cons, ih]

theorem le_bytesOf (n v : ℕ) : le (bytesOf n v) = v % 256 ^ n := by
  induction n generalizing v with
  | zero => rw [pow_zero, Nat.mod_one]; rfl
  | succ n ih =>
    change (BitVec.ofNat 8 v).toNat + 256 * le (bytesOf n (v / 256)) = _
    have hmod : v % (256 * 256 ^ n) = v % 256 + 256 * (v / 256 % 256 ^ n) := Nat.mod_mul
    rw [ih, BitVec.toNat_ofNat, pow_succ' 256 n, hmod]

/-- A number is read as it was written. -/
theorem At.read_bytesOf {v : ℕ} (h : At bs p (bytesOf n v ++ l)) (hv : v < 256 ^ n) :
    Buffer.read bs p n = some v := by
  have hread := h.read (k := 0) (n := n) (by rw [length_bytesOf, Nat.zero_add])
  rwa [Nat.add_zero, field, List.drop_zero, List.take_of_length_le (length_bytesOf n v).le,
    le_bytesOf, Nat.mod_eq_of_lt hv] at hread

/-- A write in the middle of a buffer. -/
theorem write_append {old new : List (BitVec 8)} (h : old.length = new.length)
    (pre post : List (BitVec 8)) :
    write (pre ++ old ++ post) pre.length new = some (pre ++ new ++ post) := by
  rw [write, if_pos (by simp only [List.length_append]; omega), ← h, ← List.length_append,
    List.drop_left, List.append_assoc pre old, List.take_left]

theorem length_write {new out : List (BitVec 8)} (h : write bs p new = some out) :
    out.length = bs.length := by
  rw [write] at h
  split_ifs at h with hle
  cases h
  simp only [List.length_append, List.length_take, List.length_drop]
  omega

end Buffer
