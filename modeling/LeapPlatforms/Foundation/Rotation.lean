import Mathlib.Algebra.Order.Ring.Nat
import Mathlib.Data.Fin.Rev

/-!
# Rotated vectors

A vector rotated upwards, and the rotation the other way, which is the same between two reversals.

## Main definitions

* `Rotation.rotateBy`, `reverse`

## Main results

* `rotateBy_apply_add` — where an element goes
* `reverse_rotateBy_reverse` — the other way
* `unrotate_rotateBy`, `rotateBy_unrotate` — the two are inverse
-/

namespace LeapPlatforms

namespace Rotation

variable {α : Type*} {n : ℕ}

/-- The index `k` places up, and from the end to the beginning. -/
def up (k : ℕ) (i : Fin n) : Fin n := ⟨(i + k) % n, Nat.mod_lt _ i.pos⟩

/-- The element at an index goes up by `k`. -/
def rotateBy (v : Fin n → α) (k : ℕ) : Fin n → α := fun i => v (up (n - k % n) i)

/-- The last element first. -/
def reverse (v : Fin n → α) : Fin n → α := fun i => v i.rev

theorem up_sub_up (k : ℕ) (i : Fin n) : up (n - k % n) (up k i) = i := by
  have hmod := Nat.mod_lt k i.pos
  have hdiv := Nat.div_add_mod k n
  refine Fin.ext ?_
  show ((i + k) % n + (n - k % n)) % n = i
  rw [Nat.mod_add_mod,
    show i + k + (n - k % n) = i + n * (k / n + 1) by rw [Nat.mul_add]; omega,
    Nat.add_mul_mod_self_left, Nat.mod_eq_of_lt i.isLt]

theorem up_injective (k : ℕ) : Function.Injective (up (n := n) k) :=
  Function.LeftInverse.injective (up_sub_up k)

theorem up_up_sub (k : ℕ) (i : Fin n) : up k (up (n - k % n) i) = i :=
  up_injective (n - k % n) (up_sub_up k _)

/-- The index counted from the end. -/
theorem rev_up_rev (k : ℕ) (i : Fin n) : (up (n - k % n) i.rev).rev = up k i := by
  have hmod := Nat.mod_lt k i.pos
  have hi := i.isLt
  refine Fin.ext ?_
  rw [Fin.val_rev]
  show n - ((i.rev + (n - k % n)) % n + 1) = (i + k) % n
  rw [Fin.val_rev, ← Nat.add_mod_mod i k n]
  by_cases hwrap : i + k % n < n
  · rw [Nat.mod_eq_of_lt hwrap,
      show n - (i + 1) + (n - k % n) = n - (i + k % n + 1) + n by omega, Nat.add_mod_right,
      Nat.mod_eq_of_lt (by omega)]
    omega
  · rw [Nat.mod_eq_sub_mod (by omega : n ≤ i + k % n),
      Nat.mod_eq_of_lt (by omega : i + k % n - n < n), Nat.mod_eq_of_lt (by omega)]
    omega

theorem rotateBy_up (v : Fin n → α) (k : ℕ) (i : Fin n) : rotateBy v k (up k i) = v i := by
  rw [rotateBy, up_sub_up]

/-- **The other way.** -/
theorem reverse_rotateBy_reverse (v : Fin n → α) (k : ℕ) (i : Fin n) :
    reverse (rotateBy (reverse v) k) i = v (up k i) := by
  rw [reverse, rotateBy, reverse, rev_up_rev]

theorem unrotate_rotateBy (v : Fin n → α) (k : ℕ) :
    reverse (rotateBy (reverse (rotateBy v k)) k) = v := by
  funext i
  rw [reverse_rotateBy_reverse, rotateBy_up]

theorem rotateBy_unrotate (v : Fin n → α) (k : ℕ) :
    rotateBy (reverse (rotateBy (reverse v) k)) k = v := by
  funext i
  rw [rotateBy, reverse_rotateBy_reverse, up_up_sub]

end Rotation

end LeapPlatforms
