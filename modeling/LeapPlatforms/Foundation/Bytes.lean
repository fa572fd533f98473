import Mathlib.Data.BitVec
import Mathlib.Data.List.Basic
import Mathlib.Algebra.Order.Ring.Nat
import Mathlib.Tactic.Ring

/-!
# Bytes of words, and a buffer of bytes

A word in memory, its low byte first, and a list as a buffer that is overwritten in place.

## Main definitions

* `Bytes.toBytes`, `Bytes.ofBytes`
* `Bytes.overwrite`

## Main results

* `ofBytes_toBytes`, `toBytes_ofBytes`
* `take_overwrite` — what is in a buffer up to the end of what was written last
* `take_drop_of_take` — a read within a part of a buffer that is known
-/

namespace LeapPlatforms

namespace Bytes

/-- A byte. -/
abbrev Byte : Type := BitVec 8

/-- The `n` low bytes of a number, the lowest first. -/
def digits : ℕ → ℕ → List Byte
  | 0, _ => []
  | n + 1, x => BitVec.ofNat 8 x :: digits n (x / 2 ^ 8)

/-- The number that some bytes are. -/
def value : List Byte → ℕ
  | [] => 0
  | b :: l => value l * 2 ^ 8 + b.toNat

/-- A word of `n` bytes in memory. -/
def toBytes (n : ℕ) (x : BitVec (8 * n)) : List Byte := digits n x.toNat

/-- A word of `n` bytes from memory. -/
def ofBytes (n : ℕ) (l : List Byte) : BitVec (8 * n) := BitVec.ofNat _ (value l)

@[simp] theorem length_digits (n x : ℕ) : (digits n x).length = n := by
  induction n generalizing x with
  | zero => rfl
  | succ n ih => rw [digits, List.length_cons, ih]

@[simp] theorem length_toBytes (n : ℕ) (x : BitVec (8 * n)) : (toBytes n x).length = n :=
  length_digits n _

theorem value_digits (n x : ℕ) : value (digits n x) = x % 2 ^ (8 * n) := by
  induction n generalizing x with
  | zero => rw [digits, value, Nat.mul_zero, Nat.pow_zero, Nat.mod_one]
  | succ n ih =>
    rw [digits, value, ih, BitVec.toNat_ofNat, Nat.mul_add, Nat.mul_one, Nat.pow_add, Nat.mul_comm,
      Nat.mul_comm (2 ^ (8 * n)), Nat.mod_mul, Nat.add_comm]

theorem value_lt (l : List Byte) : value l < 2 ^ (8 * l.length) := by
  induction l with
  | nil => exact Nat.one_pos
  | cons b l ih =>
    have hb := b.isLt
    rw [value, List.length_cons, Nat.mul_add, Nat.mul_one, Nat.pow_add]
    calc
      value l * 2 ^ 8 + b.toNat < value l * 2 ^ 8 + 2 ^ 8 := Nat.add_lt_add_left hb _
      _ = (value l + 1) * 2 ^ 8 := by ring
      _ ≤ 2 ^ (8 * l.length) * 2 ^ 8 := Nat.mul_le_mul_right _ ih

theorem digits_value (l : List Byte) : digits l.length (value l) = l := by
  induction l with
  | nil => rfl
  | cons b l ih =>
    have hb := b.isLt
    have hlow : BitVec.ofNat 8 (value l * 2 ^ 8 + b.toNat) = b := by
      apply BitVec.eq_of_toNat_eq
      rw [BitVec.toNat_ofNat, Nat.add_comm, Nat.add_mul_mod_self_right, Nat.mod_eq_of_lt hb]
    have hrest : (value l * 2 ^ 8 + b.toNat) / 2 ^ 8 = value l := by
      rw [Nat.add_comm, Nat.add_mul_div_right _ _ (by decide), Nat.div_eq_of_lt hb, Nat.zero_add]
    rw [value, List.length_cons, digits, hlow, hrest, ih]

/-- A word that was written is read. -/
theorem ofBytes_toBytes (n : ℕ) (x : BitVec (8 * n)) : ofBytes n (toBytes n x) = x := by
  apply BitVec.eq_of_toNat_eq
  rw [ofBytes, toBytes, BitVec.toNat_ofNat, value_digits, Nat.mod_mod, Nat.mod_eq_of_lt x.isLt]

/-- Bytes that were read as a word are written. -/
theorem toBytes_ofBytes {n : ℕ} {l : List Byte} (h : l.length = n) : toBytes n (ofBytes n l) = l := by
  subst h
  rw [toBytes, ofBytes, BitVec.toNat_ofNat, Nat.mod_eq_of_lt (value_lt l), digits_value]

/-! ### Buffers -/

variable {α : Type*}

/-- A buffer with `d` written at `i`. -/
def overwrite (l : List α) (i : ℕ) (d : List α) : List α := l.take i ++ d ++ l.drop (i + d.length)

theorem length_overwrite {l d : List α} {i : ℕ} (h : i + d.length ≤ l.length) :
    (overwrite l i d).length = l.length := by
  rw [overwrite, List.length_append, List.length_append, List.length_take, List.length_drop]
  omega

theorem take_overwrite {l d : List α} {i : ℕ} (h : i ≤ l.length) :
    (overwrite l i d).take (i + d.length) = l.take i ++ d := by
  rw [overwrite, List.take_append_of_le_length, List.take_of_length_le]
  · rw [List.length_append, List.length_take]
    omega
  · rw [List.length_append, List.length_take]
    omega

/-- A read within the first `w` elements. -/
theorem take_drop_of_take {l : List α} {i n w : ℕ} (h : i + n ≤ w) :
    (l.drop i).take n = ((l.take w).drop i).take n := by
  rw [List.drop_take, List.take_take, Nat.min_eq_left (by omega)]

end Bytes

end LeapPlatforms
