import Mathlib.Algebra.Order.Ring.Nat
import Mathlib.Data.List.Flatten

/-!
# Cutting a range into pieces

A long transfer is cut into pieces of at most a given size, which follow one another from its start
to its end.

## Main definitions

* `Piece`, `Tiles` — pieces that follow one another from `a` to `b`
* `cut` — pieces of the greatest size, and what is left
* `cutBy` — pieces of a size that depends on the place

## Main results

* `Tiles.append`, `Tiles.existsUnique` — every address lies in exactly one piece
* `tiles_cut`, `size_of_mem_cut`, `flatMap_cut`
* `tiles_cutBy`, `exists_of_mem_cutBy`
-/

namespace LeapPlatforms

namespace Tiling

/-- A piece of a range: where it starts and how long it is. -/
structure Piece where
  start : ℕ
  size : ℕ
  deriving DecidableEq

/-- An address lies in a piece. -/
def Piece.Covers (p : Piece) (x : ℕ) : Prop := p.start ≤ x ∧ x < p.start + p.size

/-- The pieces follow one another from `a` to `b`, and none is empty. -/
def Tiles (a b : ℕ) : List Piece → Prop
  | [] => a = b
  | p :: l => p.start = a ∧ 0 < p.size ∧ Tiles (a + p.size) b l

variable {a b c m n : ℕ} {p : Piece} {l l' : List Piece}

@[simp] theorem tiles_nil : Tiles a b [] ↔ a = b := Iff.rfl

@[simp] theorem tiles_cons :
    Tiles a b (p :: l) ↔ p.start = a ∧ 0 < p.size ∧ Tiles (a + p.size) b l := Iff.rfl

theorem Tiles.le (h : Tiles a b l) : a ≤ b := by
  induction l generalizing a with
  | nil => exact h.le
  | cons p l ih => exact (Nat.le_add_right a p.size).trans (ih h.2.2)

theorem Tiles.append (h : Tiles a b l) (h' : Tiles b c l') : Tiles a c (l ++ l') := by
  induction l generalizing a with
  | nil =>
    obtain rfl := h
    exact h'
  | cons p l ih => exact ⟨h.1, h.2.1, ih h.2.2⟩

/-- So many pieces of some size at most do not reach further. -/
theorem Tiles.le_add (h : Tiles a b l) (hsize : ∀ p ∈ l, p.size ≤ m) : b ≤ a + l.length * m := by
  induction l generalizing a with
  | nil => exact h.ge.trans (Nat.le_add_right _ _)
  | cons p l ih =>
    have hrest := ih h.2.2 fun q hq => hsize q (List.mem_cons_of_mem _ hq)
    have hp := hsize p List.mem_cons_self
    rw [List.length_cons, Nat.succ_mul]
    omega

/-- Pieces start where the range does, or later. -/
theorem Tiles.start_le (h : Tiles a b l) (hp : p ∈ l) : a ≤ p.start := by
  induction l generalizing a with
  | nil => cases hp
  | cons q l ih =>
    rcases List.mem_cons.mp hp with rfl | hp
    · exact h.1.ge
    · exact (Nat.le_add_right a q.size).trans (ih h.2.2 hp)

/-- Each address of the range lies in one piece and in no other. -/
theorem Tiles.existsUnique (h : Tiles a b l) {x : ℕ} (ha : a ≤ x) (hb : x < b) :
    ∃! p, p ∈ l ∧ p.Covers x := by
  induction l generalizing a with
  | nil =>
    obtain rfl := h
    omega
  | cons q l ih =>
    by_cases hx : x < a + q.size
    · refine ⟨q, ⟨List.mem_cons_self, by rw [h.1]; exact ha, by rw [h.1]; exact hx⟩, ?_⟩
      rintro p ⟨hp, hcovers⟩
      rcases List.mem_cons.mp hp with rfl | hp
      · rfl
      · have hstart := h.2.2.start_le hp
        have := hcovers.1
        omega
    · obtain ⟨p, ⟨hp, hcovers⟩, hunique⟩ := ih h.2.2 (Nat.le_of_not_lt hx)
      refine ⟨p, ⟨List.mem_cons_of_mem q hp, hcovers⟩, ?_⟩
      rintro p' ⟨hp', hcovers'⟩
      rcases List.mem_cons.mp hp' with rfl | hp'
      · have := hcovers'.2
        have := h.1
        omega
      · exact hunique p' ⟨hp', hcovers'⟩

/-- Cut a range of `n` from `a` into pieces of size `m`, and what is left. -/
def cut (m : ℕ) (a n : ℕ) : List Piece :=
  if 0 < m ∧ m < n then ⟨a, m⟩ :: cut m (a + m) (n - m) else [⟨a, n⟩]
termination_by n
decreasing_by omega

theorem cut_of_lt (hm : 0 < m) (h : m < n) : cut m a n = ⟨a, m⟩ :: cut m (a + m) (n - m) := by
  rw [cut, if_pos ⟨hm, h⟩]

theorem cut_of_le (h : n ≤ m) : cut m a n = [⟨a, n⟩] := by
  rw [cut, if_neg (fun hlt => absurd hlt.2 (Nat.not_lt.mpr h))]

theorem cut_ne_nil : cut m a n ≠ [] := by
  rw [cut]
  split
  · exact List.cons_ne_nil _ _
  · exact List.cons_ne_nil _ _

/-- The pieces of a cut tile the range. -/
theorem tiles_cut (hn : 0 < n) : Tiles a (a + n) (cut m a n) := by
  induction n using Nat.strong_induction_on generalizing a with
  | _ n ih =>
    by_cases h : 0 < m ∧ m < n
    · rw [cut_of_lt h.1 h.2]
      have hrest := ih (n - m) (by omega) (a := a + m) (by omega)
      rw [show a + m + (n - m) = a + n by omega] at hrest
      exact ⟨rfl, h.1, hrest⟩
    · rw [cut, if_neg h]
      exact ⟨rfl, hn, rfl⟩

/-- None is longer than the greatest size. -/
theorem size_of_mem_cut (hm : 0 < m) (hp : p ∈ cut m a n) : p.size ≤ m := by
  induction n using Nat.strong_induction_on generalizing a with
  | _ n ih =>
    by_cases h : m < n
    · rw [cut_of_lt hm h] at hp
      rcases List.mem_cons.mp hp with rfl | hp
      · exact le_rfl
      · exact ih (n - m) (by omega) hp
    · rw [cut_of_le (Nat.le_of_not_lt h), List.mem_singleton] at hp
      rw [hp]
      exact Nat.le_of_not_lt h

/-- Pieces of whole units have at least one. -/
theorem unit_le_of_mem_cut {u : ℕ} (hm : 0 < m) (hmu : m % u = 0) (hn : 0 < n) (hnu : n % u = 0)
    (hp : p ∈ cut m a n) : u ≤ p.size := by
  induction n using Nat.strong_induction_on generalizing a with
  | _ n ih =>
    by_cases h : m < n
    · rw [cut_of_lt hm h] at hp
      rcases List.mem_cons.mp hp with rfl | hp
      · exact Nat.le_of_dvd hm (Nat.dvd_of_mod_eq_zero hmu)
      · exact ih (n - m) (by omega) (by omega) (Nat.sub_mod_eq_zero_of_mod_eq (hnu.trans hmu.symm)) hp
    · rw [cut_of_le (Nat.le_of_not_lt h), List.mem_singleton] at hp
      rw [hp]
      exact Nat.le_of_dvd hn (Nat.dvd_of_mod_eq_zero hnu)

/-- Pieces of whole units carry the units of the range. -/
theorem flatMap_cut {α : Type*} {u : ℕ} (f : ℕ → α) (hu : 0 < u) (hm : 0 < m) (hmu : m % u = 0)
    (hnu : n % u = 0) :
    (cut m a n).flatMap (fun p => (List.range (p.size / u)).map fun k => f (p.start + u * k)) =
      (List.range (n / u)).map fun k => f (a + u * k) := by
  induction n using Nat.strong_induction_on generalizing a with
  | _ n ih =>
    by_cases h : m < n
    · have hrest : (n - m) % u = 0 := (Nat.sub_mod_eq_zero_of_mod_eq (hnu.trans hmu.symm))
      obtain ⟨q, hq⟩ : ∃ q, m = u * q :=
        ⟨m / u, (Nat.mul_div_cancel' (Nat.dvd_of_mod_eq_zero hmu)).symm⟩
      obtain ⟨r, hr⟩ : ∃ r, n - m = u * r :=
        ⟨(n - m) / u, (Nat.mul_div_cancel' (Nat.dvd_of_mod_eq_zero hrest)).symm⟩
      have hn : n = u * (q + r) := by rw [Nat.mul_add, ← hq, ← hr]; omega
      rw [cut_of_lt hm h, List.flatMap_cons, ih (n - m) (by omega) hrest, hr, hn, hq,
        Nat.mul_div_cancel_left _ hu, Nat.mul_div_cancel_left _ hu, Nat.mul_div_cancel_left _ hu,
        List.range_add, List.map_append, List.map_map]
      refine congrArg _ (List.map_congr_left fun k _ => ?_)
      show f (a + u * q + u * k) = f (a + u * (q + k))
      rw [Nat.mul_add, Nat.add_assoc]
    · rw [cut_of_le (Nat.le_of_not_lt h)]
      simp

/-! ### Pieces of a size that depends on the place -/

/-- Cut a range into pieces, each of a size that its place and what is left of the range give. -/
def cutBy (size : ℕ → ℕ → ℕ) (a n : ℕ) : List Piece :=
  if 0 < size a n ∧ size a n ≤ n then
    ⟨a, size a n⟩ :: cutBy size (a + size a n) (n - size a n)
  else []
termination_by n
decreasing_by omega

variable {size : ℕ → ℕ → ℕ}

theorem cutBy_zero : cutBy size a 0 = [] := by
  rw [cutBy, if_neg]
  omega

theorem cutBy_of_pos (h : 0 < size a n ∧ size a n ≤ n) :
    cutBy size a n = ⟨a, size a n⟩ :: cutBy size (a + size a n) (n - size a n) := by
  rw [cutBy, if_pos h]

/-- The pieces tile the range when there is always a size. -/
theorem tiles_cutBy (h : ∀ a n, 0 < n → 0 < size a n ∧ size a n ≤ n) :
    Tiles a (a + n) (cutBy size a n) := by
  induction n using Nat.strong_induction_on generalizing a with
  | _ n ih =>
    rcases Nat.eq_zero_or_pos n with rfl | hn
    · rw [cutBy_zero]
      exact rfl
    · obtain ⟨hpos, hle⟩ := h a n hn
      rw [cutBy_of_pos ⟨hpos, hle⟩]
      have hrest := ih (n - size a n) (by omega) (a := a + size a n)
      rw [show a + size a n + (n - size a n) = a + n by omega] at hrest
      exact ⟨rfl, hpos, hrest⟩

/-- A piece has the size that its place gives. -/
theorem exists_of_mem_cutBy (hp : p ∈ cutBy size a n) : ∃ m, p.size = size p.start m := by
  induction n using Nat.strong_induction_on generalizing a with
  | _ n ih =>
    by_cases h : 0 < size a n ∧ size a n ≤ n
    · rw [cutBy_of_pos h] at hp
      rcases List.mem_cons.mp hp with rfl | hp
      · exact ⟨n, rfl⟩
      · exact ih (n - size a n) (by omega) hp
    · rw [cutBy, if_neg h] at hp
      cases hp

end Tiling

end LeapPlatforms
