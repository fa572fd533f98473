import Mathlib.Algebra.Order.Field.Power
import Mathlib.Algebra.Order.Ring.Rat
import Mathlib.Data.Rat.Cast.Order
import Mathlib.Tactic.Linarith
import Mathlib.Tactic.NormNum
import Mathlib.Tactic.Ring

/-!
# Rounding to nearest, ties to even

A number has some significant bits if it is an integer of so many bits times a power of two. A
number that is not is rounded to the nearest one that is, and to the one with an even significand if
two are equally near. There is no bound for the exponent here.

## Main definitions

* `Rounding.Representable`, `Rounding.HasEvenSignificand`
* `Rounding.IsRounded` — the specification
* `Rounding.RoundsUp` — the decision by the part that is cut off

## Main results

* `isRounded_iff` — what a number between two neighbours is rounded to
-/

namespace LeapPlatforms

namespace Rounding

variable {p : ℕ}

/-! ### The specification -/

/-- A number with `p` significant bits. -/
def Representable (p : ℕ) (y : ℚ) : Prop := ∃ n k : ℤ, |n| < 2 ^ p ∧ y = n * 2 ^ k

/-- Its significand, of exactly `p` bits, is even. -/
def HasEvenSignificand (p : ℕ) (y : ℚ) : Prop :=
  ∃ n k : ℤ, 2 ^ (p - 1) ≤ |n| ∧ |n| < 2 ^ p ∧ Even n ∧ y = n * 2 ^ k

/-- `y` is `x` with `p` significant bits. -/
structure IsRounded (p : ℕ) (x y : ℚ) : Prop where
  representable : Representable p y
  nearest : ∀ z, Representable p z → |x - y| ≤ |x - z|
  even : ∀ z, Representable p z → z ≠ y → |x - z| = |x - y| → HasEvenSignificand p y

theorem representable_zero : Representable p 0 := ⟨0, 0, by simp, by simp⟩

theorem Representable.neg {y : ℚ} (h : Representable p y) : Representable p (-y) := by
  obtain ⟨n, k, hn, rfl⟩ := h
  exact ⟨-n, k, by rwa [abs_neg], by push_cast; ring⟩

theorem HasEvenSignificand.neg {y : ℚ} (h : HasEvenSignificand p y) :
    HasEvenSignificand p (-y) := by
  obtain ⟨n, k, hge, hlt, heven, rfl⟩ := h
  refine ⟨-n, k, ?_, ?_, heven.neg, by push_cast; ring⟩
  · rwa [abs_neg]
  · rwa [abs_neg]

/-- Rounding does not depend on the sign. -/
theorem IsRounded.neg {x y : ℚ} (h : IsRounded p x y) : IsRounded p (-x) (-y) := by
  have hdist (z : ℚ) : |(-x) - z| = |x - -z| := by
    rw [← abs_neg]
    congr 1
    ring
  refine ⟨h.representable.neg, fun z hz => ?_, fun z hz hne htie => ?_⟩
  · rw [hdist, hdist, neg_neg]
    exact h.nearest _ hz.neg
  · rw [hdist, hdist, neg_neg] at htie
    exact (h.even (-z) hz.neg (fun heq => hne (by rw [← heq, neg_neg])) htie).neg

theorem isRounded_neg {x y : ℚ} : IsRounded p (-x) (-y) ↔ IsRounded p x y := by
  refine ⟨fun h => ?_, IsRounded.neg⟩
  have hneg := h.neg
  rwa [neg_neg, neg_neg] at hneg

/-- What is rounded is not more than twice as large. -/
theorem IsRounded.abs_le {x y : ℚ} (h : IsRounded p x y) : |y| ≤ 2 * |x| := by
  have hzero := h.nearest 0 representable_zero
  rw [sub_zero] at hzero
  have htriangle := abs_sub_abs_le_abs_sub y x
  rw [abs_sub_comm] at htriangle
  linarith

/-! ### Neighbours -/

section Significand

variable {m n j k : ℤ}

/-- A power of two that is not less is a multiple. -/
theorem mul_zpow_of_le (hkj : k ≤ j) (n : ℤ) :
    (n : ℚ) * 2 ^ j = (n * 2 ^ (j - k).toNat : ℤ) * 2 ^ k := by
  obtain ⟨i, rfl⟩ := Int.le.dest hkj
  rw [zpow_add₀ two_ne_zero, zpow_natCast, add_sub_cancel_left, Int.toNat_natCast]
  push_cast
  ring

theorem significand_eq_of_le (hp : 1 ≤ p) (hm : 2 ^ (p - 1) ≤ m) (hn : n < 2 ^ p) (hkj : j ≤ k)
    (h : (n : ℚ) * 2 ^ j = m * 2 ^ k) : n = m := by
  have hpos : (0 : ℚ) < 2 ^ j := by positivity
  rw [mul_zpow_of_le hkj] at h
  have hmul : n = m * 2 ^ (k - j).toNat := by exact_mod_cast mul_right_cancel₀ hpos.ne' h
  cases hi : (k - j).toNat with
  | zero => rw [hmul, hi, pow_zero, mul_one]
  | succ i =>
    -- twice as large is too large
    exfalso
    have hdouble : (2 : ℤ) ^ p = 2 ^ (p - 1) * 2 := by rw [← pow_succ, Nat.sub_add_cancel hp]
    have hone : (1 : ℤ) ≤ 2 ^ i := one_le_pow₀ one_le_two
    have hmpos : 0 < m := lt_of_lt_of_le (by positivity) hm
    rw [hi, pow_succ] at hmul
    nlinarith

/-- The significand is that of the value. -/
theorem significand_eq (hp : 1 ≤ p) (hm : 2 ^ (p - 1) ≤ m) (hm' : m < 2 ^ p) (hn : 2 ^ (p - 1) ≤ n)
    (hn' : n < 2 ^ p) (h : (n : ℚ) * 2 ^ j = m * 2 ^ k) : n = m := by
  rcases le_total j k with hjk | hkj
  · exact significand_eq_of_le hp hm hn' hjk h
  · exact (significand_eq_of_le hp hn hm' hkj h.symm).symm

end Significand

section Neighbours

variable {m : ℤ} (hp : 2 ≤ p) (hlow : 2 ^ (p - 1) ≤ m) (hhigh : m < 2 ^ p) (k : ℤ)

include hlow in
theorem significand_pos : 0 < m := lt_of_lt_of_le (by positivity) hlow

include hp in
theorem two_pow_eq : (2 : ℤ) ^ p = 2 ^ (p - 1) * 2 := by
  rw [← pow_succ, Nat.sub_add_cancel (by omega)]

include hlow hhigh in
theorem representable_low : Representable p (m * 2 ^ k) :=
  ⟨m, k, by rwa [abs_of_pos (significand_pos hlow)], rfl⟩

include hp hhigh in
/-- The upper neighbour may have one more bit, and is a power of two then. -/
theorem high_cases : m + 1 < 2 ^ p ∨
    (m + 1 = 2 ^ p ∧ ((m + 1 : ℤ) : ℚ) * 2 ^ k = (2 ^ (p - 1) : ℤ) * 2 ^ (k + 1)) := by
  rcases lt_or_ge (m + 1) (2 ^ p) with hlt | hge
  · exact Or.inl hlt
  · have heq : m + 1 = 2 ^ p := by omega
    refine Or.inr ⟨heq, ?_⟩
    rw [heq, two_pow_eq hp, zpow_add_one₀ two_ne_zero]
    push_cast
    ring

include hp hlow hhigh in
theorem representable_high : Representable p ((m + 1 : ℤ) * 2 ^ k) := by
  rcases high_cases hp hhigh k with hlt | ⟨-, hpow⟩
  · exact representable_low (by omega) hlt k
  · rw [hpow]
    refine representable_low le_rfl ?_ _
    rw [two_pow_eq hp]
    have hpos : (0 : ℤ) < 2 ^ (p - 1) := by positivity
    omega

include hp hlow hhigh in
theorem hasEvenSignificand_low : HasEvenSignificand p (m * 2 ^ k) ↔ Even m := by
  have hpos := significand_pos hlow
  constructor
  · rintro ⟨n, j, hge, hlt, heven, h⟩
    have hn : 0 < n := by
      have hvalue : (0 : ℚ) < n * 2 ^ j := by
        rw [← h]
        have hm : (0 : ℚ) < m := by exact_mod_cast hpos
        positivity
      exact_mod_cast (mul_pos_iff_of_pos_right (by positivity)).mp hvalue
    rw [abs_of_pos hn] at hge hlt
    rw [significand_eq (by omega) hge hlt hlow hhigh h]
    exact heven
  · intro heven
    rw [← abs_of_pos hpos] at hlow hhigh
    exact ⟨m, k, hlow, hhigh, heven, rfl⟩

include hp hlow hhigh in
theorem hasEvenSignificand_high : HasEvenSignificand p ((m + 1 : ℤ) * 2 ^ k) ↔ ¬ Even m := by
  rcases high_cases hp hhigh k with hlt | ⟨heq, hpow⟩
  · rw [hasEvenSignificand_low hp (by omega) hlt, Int.even_add_one]
  · have heven : Even (m + 1) := by
      rw [heq]
      exact even_two.pow_of_ne_zero (by omega)
    refine ⟨fun _ => Int.even_add_one.mp heven, fun _ => ?_⟩
    rw [hpow]
    refine (hasEvenSignificand_low hp le_rfl ?_ _).mpr ?_
    · rw [two_pow_eq hp]
      have hpos : (0 : ℤ) < 2 ^ (p - 1) := by positivity
      omega
    · exact even_two.pow_of_ne_zero (by omega)

include hp hlow hhigh in
/-- There is no number of `p` bits between two neighbours. -/
theorem Representable.le_or_le {z : ℚ} (h : Representable p z) :
    z ≤ m * 2 ^ k ∨ (m + 1 : ℤ) * 2 ^ k ≤ z := by
  obtain ⟨n, j, hn, rfl⟩ := h
  have hk : (0 : ℚ) < 2 ^ k := by positivity
  rcases le_or_gt k j with hkj | hjk
  · -- a multiple of the distance of the neighbours
    rw [mul_zpow_of_le hkj]
    rcases le_or_gt (n * 2 ^ (j - k).toNat) m with hle | hgt
    · exact Or.inl (mul_le_mul_of_nonneg_right (by exact_mod_cast hle) hk.le)
    · exact Or.inr (mul_le_mul_of_nonneg_right (by exact_mod_cast hgt) hk.le)
  · -- less than the least number of this size
    refine Or.inl ?_
    have hn' : n ≤ m * 2 ^ (k - j).toNat := by
      obtain ⟨i, hi⟩ : ∃ i, (k - j).toNat = i + 1 := ⟨(k - j).toNat - 1, by omega⟩
      have hone : (1 : ℤ) ≤ 2 ^ i := one_le_pow₀ one_le_two
      have hle := le_abs_self n
      have hdouble := two_pow_eq hp
      have hpos := significand_pos hlow
      rw [hi, pow_succ]
      nlinarith
    rw [mul_zpow_of_le hjk.le]
    exact mul_le_mul_of_nonneg_right (by exact_mod_cast hn') (by positivity)

/-- What is cut off is more than a half, or a half of an odd significand. -/
def RoundsUp (m k : ℤ) (x : ℚ) : Prop :=
  (m + (m + 1 : ℤ)) * 2 ^ k < 2 * x ∨ ((m + (m + 1 : ℤ)) * 2 ^ k = 2 * x ∧ ¬ Even m)

instance (m k : ℤ) (x : ℚ) : Decidable (RoundsUp m k x) := inferInstanceAs (Decidable (_ ∨ _))

section

variable {k} {x : ℚ} (hx : m * 2 ^ k ≤ x) (hx' : x ≤ (m + 1 : ℤ) * 2 ^ k)

include hp hlow hhigh hx hx' in
theorem isRounded_high (hup : RoundsUp m k x) : IsRounded p x ((m + 1 : ℤ) * 2 ^ k) := by
  have hhalf : (m + (m + 1 : ℤ)) * 2 ^ k ≤ 2 * x := hup.elim le_of_lt fun h => h.1.le
  have hdist : |x - (m + 1 : ℤ) * 2 ^ k| = (m + 1 : ℤ) * 2 ^ k - x := by
    rw [abs_of_nonpos (by linarith), neg_sub]
  refine ⟨representable_high hp hlow hhigh k, fun z hz => ?_, fun z hz hne htie => ?_⟩
  · rw [hdist]
    rcases hz.le_or_le hp hlow hhigh k with hle | hge
    · rw [abs_of_nonneg (by linarith)]
      linarith
    · rw [abs_of_nonpos (by linarith)]
      linarith
  · rw [hdist] at htie
    rcases hz.le_or_le hp hlow hhigh k with hle | hge
    · rw [abs_of_nonneg (by linarith)] at htie
      refine (hasEvenSignificand_high hp hlow hhigh k).mpr ?_
      rcases hup with hlt | ⟨-, hodd⟩
      · linarith
      · exact hodd
    · rw [abs_of_nonpos (by linarith)] at htie
      exact absurd (by linarith) hne

include hp hlow hhigh hx hx' in
theorem isRounded_low (hdown : ¬ RoundsUp m k x) : IsRounded p x (m * 2 ^ k) := by
  have hhalf : 2 * x ≤ (m + (m + 1 : ℤ)) * 2 ^ k := not_lt.mp fun h => hdown (Or.inl h)
  have hdist : |x - m * 2 ^ k| = x - m * 2 ^ k := abs_of_nonneg (by linarith)
  refine ⟨representable_low hlow hhigh k, fun z hz => ?_, fun z hz hne htie => ?_⟩
  · rw [hdist]
    rcases hz.le_or_le hp hlow hhigh k with hle | hge
    · rw [abs_of_nonneg (by linarith)]
      linarith
    · rw [abs_of_nonpos (by linarith)]
      linarith
  · rw [hdist] at htie
    rcases hz.le_or_le hp hlow hhigh k with hle | hge
    · rw [abs_of_nonneg (by linarith)] at htie
      exact absurd (by linarith) hne
    · rw [abs_of_nonpos (by linarith)] at htie
      refine (hasEvenSignificand_low hp hlow hhigh k).mpr ?_
      by_contra hodd
      exact hdown (Or.inr ⟨by linarith, hodd⟩)

include hp hlow hhigh hx hx' in
/-- What is rounded is a neighbour. -/
theorem IsRounded.eq_or_eq {y : ℚ} (h : IsRounded p x y) :
    y = m * 2 ^ k ∨ y = (m + 1 : ℤ) * 2 ^ k := by
  rcases h.representable.le_or_le hp hlow hhigh k with hle | hge
  · have hnear := h.nearest _ (representable_low hlow hhigh k)
    rw [abs_of_nonneg (by linarith), abs_of_nonneg (by linarith)] at hnear
    exact Or.inl (by linarith)
  · have hnear := h.nearest _ (representable_high hp hlow hhigh k)
    rw [abs_of_nonpos (by linarith), abs_of_nonpos (by linarith)] at hnear
    exact Or.inr (by linarith)

include hp hlow hhigh hx hx' in
/-- **Rounding** between two neighbours. -/
theorem isRounded_iff {y : ℚ} :
    IsRounded p x y ↔
      y = if RoundsUp m k x then ((m + 1 : ℤ) : ℚ) * 2 ^ k else (m : ℚ) * 2 ^ k := by
  have hpos : (0 : ℚ) < 2 ^ k := by positivity
  have hhigh_eq : ((m + 1 : ℤ) : ℚ) * 2 ^ k = m * 2 ^ k + 2 ^ k := by
    push_cast
    ring
  constructor
  · intro h
    have hhighDist : |x - (m + 1 : ℤ) * 2 ^ k| = (m + 1 : ℤ) * 2 ^ k - x := by
      rw [abs_of_nonpos (by linarith), neg_sub]
    have hlowDist : |x - m * 2 ^ k| = x - m * 2 ^ k := abs_of_nonneg (by linarith)
    rcases h.eq_or_eq hp hlow hhigh hx hx' with rfl | rfl
    · rw [if_neg]
      rintro (hlt | ⟨heq, hodd⟩)
      · have hnear := h.nearest _ (representable_high hp hlow hhigh k)
        rw [hhighDist, hlowDist] at hnear
        linarith
      · have heven := h.even _ (representable_high hp hlow hhigh k) (by linarith)
          (by rw [hhighDist, hlowDist]; linarith)
        exact hodd ((hasEvenSignificand_low hp hlow hhigh k).mp heven)
    · rw [if_pos]
      have hnear := h.nearest _ (representable_low hlow hhigh k)
      rw [hhighDist, hlowDist] at hnear
      rcases lt_or_ge (((m : ℚ) + (m + 1 : ℤ)) * 2 ^ k) (2 * x) with hlt | hge
      · exact Or.inl hlt
      · have heven := h.even _ (representable_low hlow hhigh k) (by linarith)
          (by rw [hhighDist, hlowDist]; linarith)
        exact Or.inr ⟨by linarith, (hasEvenSignificand_high hp hlow hhigh k).mp heven⟩
  · rintro rfl
    split
    · next hup => exact isRounded_high hp hlow hhigh hx hx' hup
    · next hdown => exact isRounded_low hp hlow hhigh hx hx' hdown

end

end Neighbours

end Rounding

end LeapPlatforms
