import LeapPlatforms.Foundation.BitFields
import LeapPlatforms.Foundation.Rounding
import Mathlib.Tactic.FieldSimp

/-!
# Rounding to single precision

`roundToSingle` cuts a double to the bits of a single, and adds one to the significand if what is
cut off says so. It adds to the significand alone: when all its bits are set the carry is lost, and
the result is half of what it should be.

## Main definitions

* `roundToSingle` — the code
* `ieeeValue`, `doubleValue`, `singleValue` — what the bits stand for
* `RoundsToNormal`, `Encodes` — the doubles in question, and what is asked of the result

## Main results

* `roundsUp_iff` — the decision is that of rounding to nearest
* `roundToSingle_iff`
-/

namespace LeapPlatforms

namespace FpgaComponents

open Rounding

/-! ### The code -/

/-- `adding_one`. -/
def addingOne (significand : BitVec 23) (truncatedBits : BitVec 29) : Bool :=
  truncatedBits > 0b10000000000000000000000000000#29 ||
    (truncatedBits == 0b10000000000000000000000000000#29 && significand[0])

def roundToSingle (d : BitVec 64) : BitVec 32 :=
  let sign : BitVec 1 := d.extractLsb' 63 1
  let exp : BitVec 8 := d.extractLsb' 62 1 ++ d.extractLsb' 52 7
  let significand : BitVec 23 := d.extractLsb' 29 23
  let truncatedBits : BitVec 29 := d.extractLsb' 0 29
  let significand := if addingOne significand truncatedBits then significand + 1 else significand
  sign ++ (exp ++ significand)

/-! ### What the bits stand for -/

/-- The value of a number with some bits of exponent and of fraction. -/
def ieeeValue (expBits fracBits : ℕ) (negative : Bool) (exp frac : ℕ) : ℚ :=
  let bias : ℤ := 2 ^ (expBits - 1) - 1
  (if negative then -1 else 1) *
    if exp = 0 then (frac : ℚ) * 2 ^ (1 - bias - fracBits)
    else ((2 ^ fracBits + frac : ℕ) : ℚ) * 2 ^ (exp - bias - fracBits)

def doubleValue (d : BitVec 64) : ℚ :=
  ieeeValue 11 52 d[63] (d.extractLsb' 52 11).toNat (d.extractLsb' 0 52).toNat

def singleValue (s : BitVec 32) : ℚ :=
  ieeeValue 8 23 s[31] (s.extractLsb' 23 8).toNat (s.extractLsb' 0 23).toNat

/-- A finite double that is rounded to a normal single. -/
structure RoundsToNormal (d : BitVec 64) (y : ℚ) : Prop where
  finite : d.extractLsb' 52 11 ≠ BitVec.allOnes 11
  rounded : IsRounded 24 (doubleValue d) y
  ge : 2 ^ (-126 : ℤ) ≤ |y|
  le : |y| ≤ (2 ^ 24 - 1) * 2 ^ (104 : ℤ)

/-- The bits are those of a finite single. -/
structure Encodes (s : BitVec 32) (y : ℚ) : Prop where
  finite : s.extractLsb' 23 8 ≠ BitVec.allOnes 8
  value : singleValue s = y

/-! ### The fields -/

section Fields

variable (d : BitVec 64)

theorem sign_roundToSingle : (roundToSingle d)[31] = d[63] := by
  rw [roundToSingle, BitVec.getElem_append, dif_neg (by decide)]
  simp

theorem frac_roundToSingle : (roundToSingle d).extractLsb' 0 23 =
    if addingOne (d.extractLsb' 29 23) (d.extractLsb' 0 29) then d.extractLsb' 29 23 + 1
    else d.extractLsb' 29 23 := by
  have hlow : ∀ (a : BitVec 1) (b : BitVec 8) (c : BitVec 23),
      (a ++ (b ++ c)).extractLsb' 0 23 = c := by
    intro a b c
    rw [BitVec.extractLsb'_append_eq_of_add_le (by decide)]
    exact BitVec.extractLsb'_append_eq_right
  exact hlow _ _ _

theorem exp_roundToSingle : ((roundToSingle d).extractLsb' 23 8).toNat =
    (d.extractLsb' 52 11).toNat / 1024 * 128 + (d.extractLsb' 52 11).toNat % 128 := by
  have hmiddle : ∀ (a : BitVec 1) (b : BitVec 8) (c : BitVec 23),
      (a ++ (b ++ c)).extractLsb' 23 8 = b := by
    intro a b c
    rw [BitVec.extractLsb'_append_eq_of_add_le (by decide)]
    exact BitVec.extractLsb'_append_eq_left
  have hexp : (roundToSingle d).extractLsb' 23 8 = d.extractLsb' 62 1 ++ d.extractLsb' 52 7 :=
    hmiddle _ _ _
  rw [hexp, BitFields.toNat_append, BitVec.extractLsb'_toNat, BitVec.extractLsb'_toNat,
    BitVec.extractLsb'_toNat, Nat.shiftRight_eq_div_pow, Nat.shiftRight_eq_div_pow]
  omega

/-- The fraction of a double is the significand, and what is cut off. -/
theorem frac_eq : (d.extractLsb' 0 52).toNat =
    (d.extractLsb' 29 23).toNat * 2 ^ 29 + (d.extractLsb' 0 29).toNat := by
  rw [BitVec.extractLsb'_toNat, BitVec.extractLsb'_toNat, BitVec.extractLsb'_toNat,
    Nat.shiftRight_zero, Nat.shiftRight_eq_div_pow]
  omega

end Fields

theorem addingOne_iff (significand : BitVec 23) (truncatedBits : BitVec 29) :
    addingOne significand truncatedBits = true ↔ 2 ^ 28 < truncatedBits.toNat ∨
      (truncatedBits.toNat = 2 ^ 28 ∧ significand.toNat % 2 = 1) := by
  have hbit : significand[0] = decide (significand.toNat % 2 = 1) := by
    rw [BitVec.getElem_eq_testBit_toNat, Nat.testBit_zero]
  rw [addingOne, Bool.or_eq_true, Bool.and_eq_true, decide_eq_true_iff, beq_iff_eq, hbit,
    decide_eq_true_iff, gt_iff_lt, BitVec.lt_def, BitVec.toNat_inj.symm]
  rfl

/-- **The decision** is that of rounding to nearest, ties to even. -/
theorem roundsUp_iff (significand : BitVec 23) (truncatedBits : BitVec 29) (k : ℤ) :
    RoundsUp (2 ^ 23 + significand.toNat) (k + 29)
        (((2 ^ 52 + significand.toNat * 2 ^ 29 + truncatedBits.toNat : ℕ) : ℚ) * 2 ^ k) ↔
      addingOne significand truncatedBits = true := by
  have hpos : (0 : ℚ) < 2 ^ k := by positivity
  have hmiddle : (((2 ^ 23 + significand.toNat : ℤ) : ℚ) +
      ((2 ^ 23 + significand.toNat + 1 : ℤ) : ℚ)) * 2 ^ (k + 29) =
        (((2 * (2 ^ 23 + significand.toNat) + 1) * 2 ^ 29 : ℕ) : ℚ) * 2 ^ k := by
    rw [zpow_add₀ two_ne_zero]
    push_cast
    ring
  have hdouble : 2 * (((2 ^ 52 + significand.toNat * 2 ^ 29 + truncatedBits.toNat : ℕ) : ℚ) * 2 ^ k) =
      ((2 * (2 ^ 52 + significand.toNat * 2 ^ 29 + truncatedBits.toNat) : ℕ) : ℚ) * 2 ^ k := by
    push_cast
    ring
  rw [addingOne_iff, RoundsUp, hmiddle, hdouble, mul_lt_mul_iff_left₀ hpos, Nat.cast_lt,
    mul_left_inj' hpos.ne', Nat.cast_inj, Int.even_iff]
  omega

/-! ### What a double is rounded to -/

section Value

variable (d : BitVec 64)

/-- The sign as a factor. -/
def signFactor : ℚ := if d[63] then -1 else 1

theorem abs_signFactor_mul (x : ℚ) : |signFactor d * x| = |x| := by
  rw [signFactor]
  split
  · rw [neg_one_mul, abs_neg]
  · rw [one_mul]

theorem signFactor_mul_inj {x y : ℚ} : signFactor d * x = signFactor d * y ↔ x = y := by
  rw [signFactor]
  split
  · rw [neg_one_mul, neg_one_mul, neg_inj]
  · rw [one_mul, one_mul]

theorem isRounded_signFactor {p : ℕ} {x y : ℚ} :
    IsRounded p (signFactor d * x) (signFactor d * y) ↔ IsRounded p x y := by
  rw [signFactor]
  split
  · rw [neg_one_mul, neg_one_mul, isRounded_neg]
  · rw [one_mul, one_mul]

theorem doubleValue_eq (hexp : (d.extractLsb' 52 11).toNat ≠ 0) :
    doubleValue d = signFactor d *
      (((2 ^ 52 + (d.extractLsb' 29 23).toNat * 2 ^ 29 + (d.extractLsb' 0 29).toNat : ℕ) : ℚ) *
        2 ^ ((d.extractLsb' 52 11).toNat - 1075 : ℤ)) := by
  rw [doubleValue, ieeeValue, if_neg hexp, frac_eq, signFactor, ← Nat.add_assoc]
  congr 3
  omega

theorem doubleValue_eq_zero (hexp : (d.extractLsb' 52 11).toNat = 0) :
    |doubleValue d| < 2 ^ (-1022 : ℤ) := by
  have hlt := (d.extractLsb' 0 52).isLt
  have hpos : (0 : ℚ) < 2 ^ (-1074 : ℤ) := by positivity
  have hvalue : doubleValue d =
      signFactor d * (((d.extractLsb' 0 52).toNat : ℚ) * 2 ^ (-1074 : ℤ)) := by
    rw [doubleValue, ieeeValue, if_pos hexp, signFactor]
    rfl
  have hbound : (2 : ℚ) ^ (-1022 : ℤ) = 2 ^ 52 * 2 ^ (-1074 : ℤ) := by
    rw [← zpow_natCast, ← zpow_add₀ two_ne_zero]
    rfl
  rw [hvalue, abs_signFactor_mul, abs_of_nonneg (by positivity), hbound]
  exact mul_lt_mul_of_pos_right (by exact_mod_cast hlt) hpos

/-- The significand of what a double is rounded to. -/
def roundedSignificand : ℕ :=
  2 ^ 23 + (d.extractLsb' 29 23).toNat +
    (addingOne (d.extractLsb' 29 23) (d.extractLsb' 0 29)).toNat

/-- **The rounded value** of a double that is not subnormal. -/
theorem isRounded_doubleValue (hexp : (d.extractLsb' 52 11).toNat ≠ 0) {y : ℚ} :
    IsRounded 24 (doubleValue d) y ↔ y = signFactor d *
      ((roundedSignificand d : ℚ) * 2 ^ ((d.extractLsb' 52 11).toNat - 1046 : ℤ)) := by
  have hsig := (d.extractLsb' 29 23).isLt
  have htrunc := (d.extractLsb' 0 29).isLt
  have hk : ((d.extractLsb' 52 11).toNat - 1046 : ℤ) =
      ((d.extractLsb' 52 11).toNat - 1075 : ℤ) + 29 := by omega
  have hpos : (0 : ℚ) < 2 ^ ((d.extractLsb' 52 11).toNat - 1075 : ℤ) := by positivity
  obtain ⟨z, rfl⟩ : ∃ z, y = signFactor d * z := by
    refine ⟨signFactor d * y, ?_⟩
    rw [signFactor]
    split
    · rw [neg_one_mul, neg_one_mul, neg_neg]
    · rw [one_mul, one_mul]
  have hlow : ((2 ^ 23 + (d.extractLsb' 29 23).toNat : ℤ) : ℚ) *
      2 ^ ((d.extractLsb' 52 11).toNat - 1075 + 29 : ℤ) =
        ((2 ^ 52 + (d.extractLsb' 29 23).toNat * 2 ^ 29 : ℕ) : ℚ) *
          2 ^ ((d.extractLsb' 52 11).toNat - 1075 : ℤ) := by
    rw [zpow_add₀ two_ne_zero]
    push_cast
    ring
  have hhigh : ((2 ^ 23 + (d.extractLsb' 29 23).toNat + 1 : ℤ) : ℚ) *
      2 ^ ((d.extractLsb' 52 11).toNat - 1075 + 29 : ℤ) =
        ((2 ^ 52 + (d.extractLsb' 29 23).toNat * 2 ^ 29 + 2 ^ 29 : ℕ) : ℚ) *
          2 ^ ((d.extractLsb' 52 11).toNat - 1075 : ℤ) := by
    rw [zpow_add₀ two_ne_zero]
    push_cast
    ring
  have hup := roundsUp_iff (d.extractLsb' 29 23) (d.extractLsb' 0 29)
    ((d.extractLsb' 52 11).toNat - 1075)
  rw [doubleValue_eq d hexp, isRounded_signFactor, signFactor_mul_inj, hk,
    isRounded_iff (m := 2 ^ 23 + (d.extractLsb' 29 23).toNat) (by decide) (by omega) (by omega)
      (k := (d.extractLsb' 52 11).toNat - 1075 + 29) ?_ ?_, roundedSignificand]
  · cases hadd : addingOne (d.extractLsb' 29 23) (d.extractLsb' 0 29) with
    | false =>
      rw [if_neg (fun h => by rw [hup, hadd] at h; cases h)]
      push_cast
      simp
    | true =>
      rw [if_pos (hup.mpr hadd)]
      push_cast
      simp
  · rw [hlow]
    refine mul_le_mul_of_nonneg_right ?_ hpos.le
    exact_mod_cast Nat.le_add_right _ _
  · rw [hhigh]
    refine mul_le_mul_of_nonneg_right ?_ hpos.le
    exact_mod_cast Nat.add_le_add_left htrunc.le _

/-- The carry out of the significand. -/
theorem roundedSignificand_eq_iff : roundedSignificand d = 2 ^ 24 ↔
    d.extractLsb' 29 23 = BitVec.allOnes 23 ∧ d[28] = true := by
  have hsig := (d.extractLsb' 29 23).isLt
  have hbit : d[28] = true ↔ 2 ^ 28 ≤ (d.extractLsb' 0 29).toNat := by
    rw [BitVec.getElem_eq_testBit_toNat, Nat.testBit_eq_decide_div_mod_eq, decide_eq_true_iff,
      BitVec.extractLsb'_toNat, Nat.shiftRight_zero]
    omega
  have hones : d.extractLsb' 29 23 = BitVec.allOnes 23 ↔
      (d.extractLsb' 29 23).toNat = 2 ^ 23 - 1 := by
    rw [← BitVec.toNat_inj, BitVec.toNat_allOnes]
  have hadd := addingOne_iff (d.extractLsb' 29 23) (d.extractLsb' 0 29)
  rw [roundedSignificand, hbit, hones]
  cases hone : addingOne (d.extractLsb' 29 23) (d.extractLsb' 0 29) with
  | false =>
    rw [hone] at hadd
    have hnot := mt hadd.mpr Bool.false_ne_true
    rw [Bool.toNat_false]
    omega
  | true =>
    have hup := hadd.mp hone
    rw [Bool.toNat_true]
    omega

theorem roundedSignificand_le : roundedSignificand d ≤ 2 ^ 24 := by
  have hsig := (d.extractLsb' 29 23).isLt
  have hone := Bool.toNat_le (addingOne (d.extractLsb' 29 23) (d.extractLsb' 0 29))
  rw [roundedSignificand]
  omega

/-- The fraction of the result is the significand without a carry. -/
theorem frac_toNat : ((roundToSingle d).extractLsb' 0 23).toNat =
    roundedSignificand d % 2 ^ 23 := by
  have hsig := (d.extractLsb' 29 23).isLt
  rw [frac_roundToSingle, roundedSignificand]
  cases addingOne (d.extractLsb' 29 23) (d.extractLsb' 0 29) with
  | false =>
    rw [if_neg Bool.false_ne_true, Bool.toNat_false]
    omega
  | true =>
    rw [if_pos rfl, BitVec.toNat_add, Bool.toNat_true, Nat.add_assoc, Nat.add_mod_left]
    rfl

end Value

/-! ### The exponents in question -/

section Exponent

variable {d : BitVec 64} {y : ℚ}

theorem RoundsToNormal.exp_ne_zero (h : RoundsToNormal d y) : (d.extractLsb' 52 11).toNat ≠ 0 := by
  intro hexp
  have hsmall := doubleValue_eq_zero d hexp
  have hdouble := h.rounded.abs_le
  have hle : (2 : ℚ) * 2 ^ (-1022 : ℤ) ≤ 2 ^ (-126 : ℤ) := by
    rw [← zpow_one_add₀ two_ne_zero]
    exact zpow_le_zpow_right₀ one_le_two (by decide)
  have hge := h.ge
  linarith

theorem RoundsToNormal.y_eq (h : RoundsToNormal d y) : y = signFactor d *
    ((roundedSignificand d : ℚ) * 2 ^ ((d.extractLsb' 52 11).toNat - 1046 : ℤ)) :=
  (isRounded_doubleValue d h.exp_ne_zero).mp h.rounded

theorem RoundsToNormal.abs_eq (h : RoundsToNormal d y) : |y| =
    (roundedSignificand d : ℚ) * 2 ^ ((d.extractLsb' 52 11).toNat - 1046 : ℤ) := by
  rw [h.y_eq, abs_signFactor_mul, abs_of_nonneg (by positivity)]

/-- The exponent is one of a single, or one less and there is a carry. -/
theorem RoundsToNormal.exp_bounds (h : RoundsToNormal d y) :
    896 ≤ (d.extractLsb' 52 11).toNat ∧ (d.extractLsb' 52 11).toNat ≤ 1150 ∧
      (roundedSignificand d ≠ 2 ^ 24 → 897 ≤ (d.extractLsb' 52 11).toNat) := by
  have hle24 := roundedSignificand_le d
  have hge23 : 2 ^ 23 ≤ roundedSignificand d := by
    rw [roundedSignificand]
    omega
  have hpos : (0 : ℚ) < 2 ^ ((d.extractLsb' 52 11).toNat - 1046 : ℤ) := by positivity
  have hscale (a : ℕ) : ((2 ^ a : ℕ) : ℚ) * 2 ^ ((d.extractLsb' 52 11).toNat - 1046 : ℤ) =
      2 ^ (a + ((d.extractLsb' 52 11).toNat - 1046) : ℤ) := by
    rw [zpow_add₀ two_ne_zero, zpow_natCast]
    push_cast
    rfl
  have hge := h.ge
  have hle := h.le
  rw [h.abs_eq] at hge hle
  refine ⟨?_, ?_, fun hne => ?_⟩
  · have htop : (2 : ℚ) ^ (-126 : ℤ) ≤ 2 ^ ((24 : ℕ) + ((d.extractLsb' 52 11).toNat - 1046) : ℤ) := by
      rw [← hscale]
      exact hge.trans (mul_le_mul_of_nonneg_right (by exact_mod_cast hle24) hpos.le)
    have hexp := (zpow_le_zpow_iff_right₀ one_lt_two).mp htop
    omega
  · have hbottom : (2 : ℚ) ^ ((23 : ℕ) + ((d.extractLsb' 52 11).toNat - 1046) : ℤ) <
        2 ^ (128 : ℤ) := by
      rw [← hscale]
      calc
        ((2 ^ 23 : ℕ) : ℚ) * 2 ^ ((d.extractLsb' 52 11).toNat - 1046 : ℤ)
            ≤ (roundedSignificand d : ℚ) * 2 ^ ((d.extractLsb' 52 11).toNat - 1046 : ℤ) :=
          mul_le_mul_of_nonneg_right (by exact_mod_cast hge23) hpos.le
        _ ≤ (2 ^ 24 - 1) * 2 ^ (104 : ℤ) := hle
        _ < 2 ^ (128 : ℤ) := by norm_num
    have hexp := (zpow_lt_zpow_iff_right₀ one_lt_two).mp hbottom
    omega
  · have hlt : roundedSignificand d < 2 ^ 24 := by omega
    have htop : (2 : ℚ) ^ (-126 : ℤ) < 2 ^ ((24 : ℕ) + ((d.extractLsb' 52 11).toNat - 1046) : ℤ) := by
      rw [← hscale]
      exact hge.trans_lt (mul_lt_mul_of_pos_right (by exact_mod_cast hlt) hpos)
    have hexp := (zpow_lt_zpow_iff_right₀ one_lt_two).mp htop
    omega

end Exponent

/-! ### The result -/

/-- The value of the result, for an exponent that it has room for. -/
theorem singleValue_roundToSingle {d : BitVec 64} (hge : 896 ≤ (d.extractLsb' 52 11).toNat)
    (hle : (d.extractLsb' 52 11).toNat ≤ 1150) :
    singleValue (roundToSingle d) = signFactor d *
      if (d.extractLsb' 52 11).toNat = 896 then
        ((roundedSignificand d % 2 ^ 23 : ℕ) : ℚ) * 2 ^ (-149 : ℤ)
      else ((2 ^ 23 + roundedSignificand d % 2 ^ 23 : ℕ) : ℚ) *
        2 ^ ((d.extractLsb' 52 11).toNat - 1046 : ℤ) := by
  have hexp : (d.extractLsb' 52 11).toNat / 1024 * 128 + (d.extractLsb' 52 11).toNat % 128 =
      (d.extractLsb' 52 11).toNat - 896 := by omega
  rw [singleValue, ieeeValue, sign_roundToSingle, exp_roundToSingle, frac_toNat, hexp, signFactor]
  refine congrArg (fun x => (if d[63] = true then (-1 : ℚ) else 1) * x) ?_
  rcases Decidable.em ((d.extractLsb' 52 11).toNat = 896) with heq | hne
  · have hk : (1 - (2 ^ (8 - 1) - 1) - (23 : ℕ) : ℤ) = -149 := by norm_num
    rw [if_pos heq, if_pos (by omega), hk]
  · have hk : (((d.extractLsb' 52 11).toNat - 896 : ℕ) - (2 ^ (8 - 1) - 1) - (23 : ℕ) : ℤ) =
        (d.extractLsb' 52 11).toNat - 1046 := by omega
    rw [if_neg hne, if_neg (by omega), hk]

/-- A double from one to two is rounded to a normal single. -/
theorem roundsToNormal_of_exp {d : BitVec 64} (hsign : d[63] = false)
    (hexp : (d.extractLsb' 52 11).toNat = 1023) :
    RoundsToNormal d ((roundedSignificand d : ℚ) * 2 ^ (-23 : ℤ)) := by
  have hlow : (2 ^ 23 : ℚ) ≤ roundedSignificand d := by
    have hnat : 2 ^ 23 ≤ roundedSignificand d := by
      rw [roundedSignificand]
      omega
    exact_mod_cast hnat
  have hhigh : (roundedSignificand d : ℚ) ≤ 2 ^ 24 := by exact_mod_cast roundedSignificand_le d
  have hpos : (0 : ℚ) < 2 ^ (-23 : ℤ) := by positivity
  have habs : |(roundedSignificand d : ℚ) * 2 ^ (-23 : ℤ)| =
      (roundedSignificand d : ℚ) * 2 ^ (-23 : ℤ) := abs_of_nonneg (by positivity)
  refine ⟨fun hones => ?_, ?_, ?_, ?_⟩
  · rw [hones, BitVec.toNat_allOnes] at hexp
    omega
  · rw [isRounded_doubleValue d (by omega), signFactor, hsign, if_neg Bool.false_ne_true, one_mul,
      hexp]
    rfl
  · rw [habs]
    calc
      (2 : ℚ) ^ (-126 : ℤ) ≤ 2 ^ 23 * 2 ^ (-23 : ℤ) := by norm_num
      _ ≤ roundedSignificand d * 2 ^ (-23 : ℤ) := mul_le_mul_of_nonneg_right hlow hpos.le
  · rw [habs]
    calc
      (roundedSignificand d : ℚ) * 2 ^ (-23 : ℤ) ≤ 2 ^ 24 * 2 ^ (-23 : ℤ) :=
        mul_le_mul_of_nonneg_right hhigh hpos.le
      _ ≤ (2 ^ 24 - 1) * 2 ^ (104 : ℤ) := by norm_num

/-- **The result** is the rounded value except where the significand is all ones and one is added to
it. -/
theorem roundToSingle_iff (d : BitVec 64) (y : ℚ) (h : RoundsToNormal d y) :
    Encodes (roundToSingle d) y ↔
      ¬ (d.extractLsb' 29 23 = BitVec.allOnes 23 ∧ d[28] = true) := by
  obtain ⟨hge, hle, hnormal⟩ := h.exp_bounds
  have hfinite : (roundToSingle d).extractLsb' 23 8 ≠ BitVec.allOnes 8 := by
    intro hones
    have hexp := exp_roundToSingle d
    rw [hones, BitVec.toNat_allOnes] at hexp
    omega
  have hpos : (0 : ℚ) < 2 ^ ((d.extractLsb' 52 11).toNat - 1046 : ℤ) := by positivity
  rw [← roundedSignificand_eq_iff]
  constructor
  · rintro ⟨-, hvalue⟩ hcarry
    rw [singleValue_roundToSingle hge hle, h.y_eq, signFactor_mul_inj, hcarry] at hvalue
    split at hvalue
    · have hzero : ((2 ^ 24 % 2 ^ 23 : ℕ) : ℚ) = 0 := by norm_num
      have htop : (0 : ℚ) < ((2 ^ 24 : ℕ) : ℚ) := by norm_num
      rw [hzero, zero_mul] at hvalue
      exact (mul_pos htop hpos).ne hvalue
    · have hhalf := mul_right_cancel₀ hpos.ne' hvalue
      norm_num at hhalf
  · intro hnone
    have hne := hnormal hnone
    refine ⟨hfinite, ?_⟩
    have hsig : 2 ^ 23 + roundedSignificand d % 2 ^ 23 = roundedSignificand d := by
      have hlow : 2 ^ 23 ≤ roundedSignificand d := by
        rw [roundedSignificand]
        omega
      have hhigh := roundedSignificand_le d
      omega
    rw [singleValue_roundToSingle hge hle, if_neg (by omega), hsig, h.y_eq]

/-- One and a half. -/
theorem roundToSingle_iff_threeHalves : Encodes (roundToSingle 0x3FF8000000000000#64)
    ((roundedSignificand 0x3FF8000000000000#64 : ℚ) * 2 ^ (-23 : ℤ)) :=
  (roundToSingle_iff _ _ (roundsToNormal_of_exp (by decide) (by decide))).mpr (by decide)

/-- The greatest double below two is rounded to two, and the result is one. -/
theorem roundToSingle_carry_lost : ¬ ∀ (d : BitVec 64) (y : ℚ), RoundsToNormal d y →
    Encodes (roundToSingle d) y := by
  intro hall
  have hsig : roundedSignificand 0x3FFFFFFFFFFFFFFF#64 = 2 ^ 24 := by decide
  have hexp : ((0x3FFFFFFFFFFFFFFF#64).extractLsb' 52 11).toNat = 1023 := by decide
  have hvalue := (hall _ _ (roundsToNormal_of_exp (by decide) hexp)).value
  rw [singleValue_roundToSingle (by rw [hexp]; decide) (by rw [hexp]; decide), hexp, hsig, signFactor,
    if_neg (by decide), if_neg (by decide)] at hvalue
  norm_num at hvalue

end FpgaComponents

end LeapPlatforms
