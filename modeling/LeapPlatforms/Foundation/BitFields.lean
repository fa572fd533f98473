import Mathlib.Data.BitVec
import Mathlib.Algebra.Order.Ring.Nat

/-!
# Fields of a word

A word that is put together by shifts and ors, or by appending fields, and taken apart by shifts and
masks, read as a number in mixed radix.

## Main results

* `toNat_shiftLeft_or`, `toNat_append` — one more field at the low end
* `toNat_and_ones`, `toNat_shiftRight` — the low field, and the rest
* `low_field`, `high_field` — the digits of a number
-/

namespace LeapPlatforms

namespace BitFields

variable {w k : ℕ}

/-- The low digit. -/
theorem low_field {a b m : ℕ} (hb : b < m) : (a * m + b) % m = b := by
  rw [Nat.add_comm, Nat.add_mul_mod_self_right, Nat.mod_eq_of_lt hb]

/-- The other digits. -/
theorem high_field {a b m : ℕ} (hb : b < m) : (a * m + b) / m = a := by
  rw [Nat.add_comm, Nat.add_mul_div_right _ _ (Nat.zero_lt_of_lt hb), Nat.div_eq_of_lt hb,
    Nat.zero_add]

/-- A number with one more digit. -/
theorem field_lt {a b m n : ℕ} (ha : a < n) (hb : b < m) : a * m + b < n * m := by
  calc
    a * m + b < a * m + m := Nat.add_lt_add_left hb _
    _ = (a + 1) * m := by rw [Nat.add_mul, Nat.one_mul]
    _ ≤ n * m := Nat.mul_le_mul_right _ ha

/-- A field is put in below the others, when they leave room for it. -/
theorem toNat_shiftLeft_or {a b : BitVec w} (ha : a.toNat * 2 ^ k < 2 ^ w) (hb : b.toNat < 2 ^ k) :
    (a <<< k ||| b).toNat = a.toNat * 2 ^ k + b.toNat := by
  rw [BitVec.toNat_or, BitVec.toNat_shiftLeft, Nat.shiftLeft_eq, Nat.mod_eq_of_lt ha,
    Nat.mul_comm, ← Nat.two_pow_add_eq_or_of_lt hb]

/-- The field that was put in last is the low one, also where the others leave no room. -/
theorem toNat_shiftLeft_or_mod {a b : BitVec w} (hk : k ≤ w) (hb : b.toNat < 2 ^ k) :
    (a <<< k ||| b).toNat % 2 ^ k = b.toNat := by
  have hpow : 2 ^ w = 2 ^ k * 2 ^ (w - k) := by
    rw [← Nat.pow_add, Nat.add_sub_cancel' hk]
  rw [BitVec.toNat_or, BitVec.toNat_shiftLeft, Nat.shiftLeft_eq, Nat.mul_comm, hpow,
    Nat.mul_mod_mul_left, ← Nat.two_pow_add_eq_or_of_lt hb, Nat.mul_add_mod, Nat.mod_eq_of_lt hb]

theorem toNat_append {m n : ℕ} (x : BitVec m) (y : BitVec n) :
    (x ++ y).toNat = x.toNat * 2 ^ n + y.toNat := by
  rw [BitVec.toNat_append, Nat.shiftLeft_eq, Nat.mul_comm, ← Nat.two_pow_add_eq_or_of_lt y.isLt]

/-- A mask of ones takes the low field. -/
theorem toNat_and_ones {a mask : BitVec w} (hmask : mask.toNat = 2 ^ k - 1) :
    (a &&& mask).toNat = a.toNat % 2 ^ k := by
  rw [BitVec.toNat_and, hmask, Nat.and_two_pow_sub_one_eq_mod]

theorem toNat_shiftRight (a : BitVec w) (k : ℕ) : (a >>> k).toNat = a.toNat / 2 ^ k := by
  rw [BitVec.toNat_ushiftRight, Nat.shiftRight_eq_div_pow]

end BitFields

end LeapPlatforms
