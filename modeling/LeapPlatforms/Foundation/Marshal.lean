import Mathlib.Data.List.Basic
import Mathlib.Algebra.Order.Ring.Nat
import Mathlib.Tactic.Common

/-!
# Words as fragments, high to low

A marshaller cuts a word of `n * w` bits into `n` fragments of `w` bits and hands out the highest
first; a demarshaller collects `n` fragments and puts the word together again. Here are the two
functions, and what a sequence of fragments says about the sequence of words it was cut from.

## Main definitions

* `Marshal.split`, `Marshal.join`

## Main results

* `join_split`
* `map_join_isPrefix` — complete groups of fragments that begin the fragments of some words are the
  fragments of the first of these words
-/

namespace LeapPlatforms

namespace Marshal

variable {w : ℕ}

/-- The fragments of a word, highest first. -/
def split : (n : ℕ) → BitVec (n * w) → List (BitVec w)
  | 0, _ => []
  | n + 1, x => x.extractLsb' (n * w) w :: split n (x.extractLsb' 0 (n * w))

/-- The value of a list of fragments, highest first. -/
def joinNat : List (BitVec w) → ℕ
  | [] => 0
  | d :: l => d.toNat * 2 ^ (l.length * w) + joinNat l

/-- The word that `n` fragments make up. -/
def join (n : ℕ) (l : List (BitVec w)) : BitVec (n * w) := BitVec.ofNat _ (joinNat l)

@[simp] theorem length_split (n : ℕ) (x : BitVec (n * w)) : (split n x).length = n := by
  induction n with
  | zero => rfl
  | succ n ih => rw [split, List.length_cons, ih]

/-- The first fragment is the highest. -/
theorem eq_of_split_eq_cons {n : ℕ} {x : BitVec (n * w)} {d : BitVec w} {l : List (BitVec w)}
    (h : split n x = d :: l) : d = x.extractLsb' ((n - 1) * w) w := by
  cases n with
  | zero => cases h
  | succ n => exact (List.cons.inj h).1.symm

theorem joinNat_split (n : ℕ) (x : BitVec (n * w)) : joinNat (split n x) = x.toNat := by
  induction n with
  | zero =>
    have := x.isLt
    simp only [Nat.zero_mul, Nat.pow_zero, Nat.lt_one_iff] at this
    rw [split, joinNat, this]
  | succ n ih =>
    have hx : x.toNat < 2 ^ (n * w) * 2 ^ w := by
      rw [← Nat.pow_add, ← Nat.succ_mul]
      exact x.isLt
    have hdiv : x.toNat / 2 ^ (n * w) < 2 ^ w := Nat.div_lt_of_lt_mul hx
    rw [split, joinNat, ih, length_split, BitVec.extractLsb'_toNat, BitVec.extractLsb'_toNat,
      Nat.shiftRight_zero, Nat.shiftRight_eq_div_pow, Nat.mod_eq_of_lt hdiv]
    exact Nat.div_add_mod' _ _

theorem joinNat_append (l₁ l₂ : List (BitVec w)) :
    joinNat (l₁ ++ l₂) = joinNat l₁ * 2 ^ (l₂.length * w) + joinNat l₂ := by
  induction l₁ with
  | nil => simp [joinNat]
  | cons d l ih =>
    rw [List.cons_append, joinNat, joinNat, ih, List.length_append, Nat.add_mul l.length,
      Nat.pow_add, Nat.add_mul, Nat.mul_assoc, Nat.add_assoc]

/-- A word is what its fragments make up. -/
theorem join_split (n : ℕ) (x : BitVec (n * w)) : join n (split n x) = x := by
  rw [join, joinNat_split, BitVec.ofNat_toNat, BitVec.setWidth_eq]

/-- **Reassembly.** Complete groups that are the beginning of the fragments of `xs` make up the
beginning of `xs`. -/
theorem map_join_isPrefix {n : ℕ} (hn : 0 < n) {groups : List (List (BitVec w))}
    {xs : List (BitVec (n * w))} (hlen : ∀ l ∈ groups, l.length = n)
    (h : groups.flatten <+: xs.flatMap (split n)) : groups.map (join n) <+: xs := by
  induction groups generalizing xs with
  | nil => exact List.nil_prefix
  | cons l groups ih =>
    have hl : l.length = n := hlen l (by simp)
    cases xs with
    | nil =>
      have : l = [] := by
        simp only [List.flatMap_nil, List.prefix_nil, List.flatten_cons, List.append_eq_nil_iff] at h
        exact h.1
      rw [this, List.length_nil] at hl
      omega
    | cons x xs =>
      obtain ⟨rest, hrest⟩ := h
      rw [List.flatten_cons, List.flatMap_cons, List.append_assoc] at hrest
      obtain ⟨hhead, htail⟩ := List.append_inj hrest (by rw [hl, length_split])
      rw [List.map_cons, hhead, join_split, List.prefix_cons_inj]
      exact ih (fun l' hl' => hlen l' (List.mem_cons_of_mem _ hl')) ⟨rest, htail⟩

end Marshal

end LeapPlatforms
