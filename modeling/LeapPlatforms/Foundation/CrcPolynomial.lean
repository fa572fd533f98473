import LeapPlatforms.Foundation.Crc
import Mathlib.Algebra.Polynomial.Div
import Mathlib.Algebra.Polynomial.RingDivision
import Mathlib.Algebra.CharP.Two
import Mathlib.Algebra.Field.ZMod
import Mathlib.Algebra.Prime.Lemmas

/-!
# Checksums as polynomials

A bit string is a polynomial over the field of two elements, exclusive or is its addition, and the
bit-serial loop is division with remainder: the checksum of a word is the remainder of the initial
value, moved up by the length of the word, plus the word. What a checksum detects follows from the
divisor alone: a divisor with a constant term detects every burst that is no longer than its degree,
and one with an even number of terms every error of an odd number of bits.

## Main definitions

* `Crc.toPoly` — a bit string as a polynomial
* `Crc.weight` — how many bits are set
* `Crc.chain` — the checksum of several words, each continuing that of the one before

## Main results

* `toPoly_hash` — the loop is division with remainder
* `hash_xor`, `hash_check` — linearity, and where the check bits sit
* `chain_burst`, `chain_odd` — what the checksum of several words detects
-/

namespace LeapPlatforms

namespace Crc

open Polynomial

variable {w : ℕ}

/-! ## Bit strings -/

/-- The polynomial whose coefficients are the bits. -/
noncomputable def toPoly (x : BitVec w) : (ZMod 2)[X] :=
  ∑ i ∈ Finset.range w, if x.getLsbD i then X ^ i else 0

theorem coeff_toPoly (x : BitVec w) (i : ℕ) :
    (toPoly x).coeff i = if x.getLsbD i then 1 else 0 := by
  rw [toPoly, finsetSum_coeff]
  by_cases hi : i < w
  · rw [Finset.sum_eq_single_of_mem i (Finset.mem_range.mpr hi)]
    · split <;> simp
    · intro j _ hj
      split <;> simp [coeff_X_pow, hj.symm]
  · rw [BitVec.getLsbD_of_ge x i (by omega), if_neg (by simp)]
    refine Finset.sum_eq_zero fun j hj => ?_
    have hj : i ≠ j := by
      have := Finset.mem_range.mp hj
      omega
    split <;> simp [coeff_X_pow, hj]

theorem toPoly_injective {x y : BitVec w} (h : toPoly x = toPoly y) : x = y := by
  refine BitVec.eq_of_getLsbD_eq fun i _ => ?_
  have hi := congrArg (fun p => coeff p i) h
  simp only [coeff_toPoly] at hi
  revert hi
  cases x.getLsbD i <;> cases y.getLsbD i <;> simp

@[simp] theorem toPoly_zero : toPoly (0 : BitVec w) = 0 := by
  ext i
  simp [coeff_toPoly]

theorem toPoly_eq_zero {x : BitVec w} : toPoly x = 0 ↔ x = 0 :=
  ⟨fun h => toPoly_injective (h.trans toPoly_zero.symm), fun h => by rw [h, toPoly_zero]⟩

theorem toPoly_xor (x y : BitVec w) : toPoly (x ^^^ y) = toPoly x + toPoly y := by
  ext i
  rw [coeff_add, coeff_toPoly, coeff_toPoly, coeff_toPoly, BitVec.getLsbD_xor]
  cases x.getLsbD i <;> cases y.getLsbD i <;> decide

theorem degree_toPoly_lt (x : BitVec w) : (toPoly x).degree < w := by
  rw [degree_lt_iff_coeff_zero]
  intro i hi
  rw [coeff_toPoly, BitVec.getLsbD_of_ge x i hi, if_neg (by simp)]

/-- A longer string with zeros at its high end is the same polynomial. -/
theorem toPoly_setWidth {v : ℕ} (x : BitVec w) (h : ∀ i, v ≤ i → x.getLsbD i = false) :
    toPoly (x.setWidth v) = toPoly x := by
  ext i
  rw [coeff_toPoly, coeff_toPoly, BitVec.getLsbD_setWidth]
  by_cases hi : i < v
  · simp [hi]
  · simp [hi, h i (by omega)]

/-- One more bit at the low end. -/
theorem toPoly_append (x : BitVec w) (b : Bool) :
    toPoly (x ++ BitVec.ofBool b) = toPoly x * X + if b then 1 else 0 := by
  ext i
  rw [coeff_toPoly, coeff_add, BitVec.getLsbD_append]
  rcases i with _ | i
  · cases b <;> simp
  · have hone : ∀ b : Bool, (if b then (1 : (ZMod 2)[X]) else 0).coeff (i + 1) = 0 := by
      intro b
      cases b <;> simp [coeff_one]
    rw [hone, add_zero, coeff_mul_X, coeff_toPoly]
    simp

/-! ## The loop -/

variable {poly : BitVec 9}

/-- A divisor with its highest bit set is monic. -/
theorem monic_toPoly (h : poly.msb = true) : (toPoly poly).Monic := by
  refine monic_of_degree_le 8 ?_ ?_
  · have hlt := degree_toPoly_lt poly
    exact Order.le_of_lt_succ hlt
  · rw [coeff_toPoly, ← BitVec.msb_eq_getLsbD_last poly, h, if_pos rfl]

theorem degree_toPoly (h : poly.msb = true) : (toPoly poly).degree = 8 := by
  refine le_antisymm (Order.le_of_lt_succ (degree_toPoly_lt poly)) (le_degree_of_ne_zero ?_)
  rw [coeff_toPoly, ← BitVec.msb_eq_getLsbD_last poly, h, if_pos rfl]
  exact one_ne_zero

/-- One turn of the loop adds the divisor, or nothing. -/
theorem toPoly_oneStep (h : poly.msb = true) (b : Bool) (rem : BitVec 8) :
    toPoly (oneStep poly b rem) =
      toPoly rem * X + (if b then 1 else 0) + if rem.msb then toPoly poly else 0 := by
  have htop : (rem ++ BitVec.ofBool b).getLsbD 8 = rem.msb := by
    rw [BitVec.getLsbD_append, BitVec.msb_eq_getLsbD_last rem]
    simp
  have hhigh : ∀ x : BitVec 9, x.getLsbD 8 = false → ∀ i, 8 ≤ i → x.getLsbD i = false := by
    intro x hx i hi
    rcases Nat.eq_or_lt_of_le hi with rfl | hi
    · exact hx
    · exact BitVec.getLsbD_of_ge x i hi
  rw [← toPoly_append, oneStep]
  by_cases hrem : rem.msb = true
  · rw [if_pos hrem, if_pos hrem, toPoly_setWidth, toPoly_xor]
    refine hhigh _ ?_
    have hpoly : poly.getLsbD 8 = true := by
      rw [← h, BitVec.msb_eq_getLsbD_last poly]
    rw [BitVec.getLsbD_xor, htop, hrem, hpoly, Bool.xor_self]
  · rw [if_neg hrem, if_neg hrem, add_zero, toPoly_setWidth]
    refine hhigh _ ?_
    rw [htop]
    simpa using hrem

/-- The polynomial of the lowest `n` bits of a string of any length. -/
noncomputable def lowPoly (f : ℕ → Bool) (n : ℕ) : (ZMod 2)[X] :=
  ∑ i ∈ Finset.range n, if f i then X ^ i else 0

theorem dvd_foldr (h : poly.msb = true) (f : ℕ → Bool) (n : ℕ) (init : BitVec 8) :
    toPoly poly ∣ toPoly init * X ^ n + lowPoly f n -
      toPoly ((List.range n).foldr (fun i rem => oneStep poly (f i) rem) init) := by
  induction n generalizing init with
  | zero => simp [lowPoly]
  | succ n ih =>
    have hstep : toPoly init * X ^ (n + 1) + lowPoly f (n + 1) =
        toPoly (oneStep poly (f n) init) * X ^ n + lowPoly f n -
          (if init.msb then toPoly poly else 0) * X ^ n := by
      have hbit : (if f n then (X : (ZMod 2)[X]) ^ n else 0) = (if f n then 1 else 0) * X ^ n := by
        cases f n <;> simp
      rw [toPoly_oneStep h, lowPoly, Finset.sum_range_succ, ← lowPoly, hbit]
      ring
    have hdvd : toPoly poly ∣ (if init.msb then toPoly poly else 0) * X ^ n := by
      split
      · exact dvd_mul_right _ _
      · simp
    rw [List.range_succ, List.foldr_append, hstep]
    have hsub := dvd_sub (ih (oneStep poly (f n) init)) hdvd
    convert hsub using 1
    simp only [List.foldr_cons, List.foldr_nil]
    ring

/-- **Division with remainder.** -/
theorem toPoly_hash (h : poly.msb = true) (init : BitVec 8) (bits : BitVec w) :
    toPoly (hash poly init bits) = (toPoly init * X ^ w + toPoly bits) %ₘ toPoly poly := by
  obtain ⟨q, hq⟩ := dvd_foldr h bits.getLsbD w init
  refine ((div_modByMonic_unique q _ (monic_toPoly h) ⟨?_, ?_⟩).2).symm
  · rw [← hq]
    change toPoly (hash poly init bits) + (_ + toPoly bits - toPoly (hash poly init bits)) = _
    ring
  · rw [degree_toPoly h]
    exact degree_toPoly_lt _

theorem hash_eq_zero_iff (h : poly.msb = true) {init : BitVec 8} {bits : BitVec w} :
    hash poly init bits = 0 ↔ toPoly poly ∣ toPoly init * X ^ w + toPoly bits := by
  rw [← toPoly_eq_zero, toPoly_hash h, modByMonic_eq_zero_iff_dvd (monic_toPoly h)]

/-- **Linearity.** -/
theorem hash_xor (h : poly.msb = true) (init init' : BitVec 8) (bits bits' : BitVec w) :
    hash poly (init ^^^ init') (bits ^^^ bits') =
      hash poly init bits ^^^ hash poly init' bits' := by
  refine toPoly_injective ?_
  rw [toPoly_xor, toPoly_hash h, toPoly_hash h, toPoly_hash h, ← add_modByMonic, toPoly_xor,
    toPoly_xor]
  congr 1
  ring

/-- A word of eight bits is its own remainder. -/
theorem hash_zero_setWidth (h : poly.msb = true) (hw : 8 ≤ w) (c : BitVec 8) :
    hash poly 0 (c.setWidth w) = c := by
  refine toPoly_injective ?_
  have hc : toPoly (c.setWidth w) = toPoly c :=
    toPoly_setWidth c fun i hi => BitVec.getLsbD_of_ge c i (by omega)
  rw [toPoly_hash h, toPoly_zero, zero_mul, zero_add, hc,
    (modByMonic_eq_self_iff (monic_toPoly h)).mpr]
  rw [degree_toPoly h]
  exact degree_toPoly_lt c

/-- **The check bits.** A word whose low eight bits are free is given those with which it has no
remainder, and they are its checksum. -/
theorem hash_check (h : poly.msb = true) (hw : 8 ≤ w) (init c : BitVec 8) {data : BitVec w}
    (hdata : data.setWidth 8 = 0) :
    hash poly init (data ||| c.setWidth w) = 0 ↔ c = hash poly init data := by
  have hor : data ||| c.setWidth w = data ^^^ c.setWidth w := by
    refine BitVec.eq_of_getLsbD_eq fun i hi => ?_
    have hlow : i < 8 → data.getLsbD i = false := by
      intro hi8
      have hbit := congrArg (fun x => BitVec.getLsbD x i) hdata
      simpa [hi8] using hbit
    rw [BitVec.getLsbD_or, BitVec.getLsbD_xor, BitVec.getLsbD_setWidth]
    by_cases hi8 : i < 8
    · simp [hlow hi8]
    · simp [BitVec.getLsbD_of_ge c i (by omega)]
  have hinit : init = init ^^^ 0 := by simp
  rw [hor]
  conv_lhs => rw [hinit]
  rw [hash_xor h, hash_zero_setWidth h hw]
  exact BitVec.xor_eq_zero_iff.trans eq_comm

/-! ## Several words -/

/-- The checksum of several words, each continuing that of the one before. -/
def chain (poly : BitVec 9) (init : BitVec 8) (words : List (BitVec w)) : BitVec 8 :=
  words.foldl (fun parity x => hash poly parity x) init

@[simp] theorem chain_nil (init : BitVec 8) : chain poly init ([] : List (BitVec w)) = init := rfl

@[simp] theorem chain_cons (init : BitVec 8) (x : BitVec w) (words : List (BitVec w)) :
    chain poly init (x :: words) = chain poly (hash poly init x) words := rfl

theorem chain_append (init : BitVec 8) (words words' : List (BitVec w)) :
    chain poly init (words ++ words') = chain poly (chain poly init words) words' :=
  List.foldl_append

/-- The words with errors. -/
def corrupt (words errors : List (BitVec w)) : List (BitVec w) := List.zipWith (· ^^^ ·) words errors

theorem chain_corrupt (h : poly.msb = true) (init init' : BitVec 8) {words errors : List (BitVec w)}
    (hlen : words.length = errors.length) :
    chain poly (init ^^^ init') (corrupt words errors) =
      chain poly init words ^^^ chain poly init' errors := by
  induction words generalizing init init' errors with
  | nil =>
    obtain rfl := List.length_eq_zero_iff.mp hlen.symm
    rfl
  | cons x words ih =>
    rcases errors with _ | ⟨e, errors⟩
    · cases hlen
    · change chain poly (hash poly (init ^^^ init') (x ^^^ e)) (corrupt words errors) = _
      rw [hash_xor h, ih _ _ (Nat.succ.inj hlen)]
      rfl

/-- Words that pass the check fail it with errors whose own checksum is not zero. -/
theorem chain_corrupt_ne_zero (h : poly.msb = true) (init : BitVec 8)
    {words errors : List (BitVec w)} (hlen : words.length = errors.length)
    (hwords : chain poly init words = 0) (herrors : chain poly 0 errors ≠ 0) :
    chain poly init (corrupt words errors) ≠ 0 := by
  have hinit : init = init ^^^ 0 := by simp
  rw [hinit, chain_corrupt h _ _ hlen, hwords]
  simpa using herrors

/-! ## Bursts -/

/-- A divisor with a constant term divides no power of the variable. -/
theorem dvd_of_dvd_mul_X_pow (hone : poly.getLsbD 0 = true) {f : (ZMod 2)[X]} {n : ℕ}
    (h : toPoly poly ∣ f * X ^ n) : toPoly poly ∣ f := by
  have hX : ¬X ∣ toPoly poly := by
    rw [X_dvd_iff, coeff_toPoly, if_pos hone]
    exact one_ne_zero
  obtain ⟨q, hq⟩ := h
  have hpow : X ^ n ∣ toPoly poly * q := Dvd.intro_left f hq
  obtain ⟨r, rfl⟩ := prime_X.pow_dvd_of_dvd_mul_left n hX hpow
  refine ⟨r, mul_right_cancel₀ (pow_ne_zero n X_ne_zero) (hq.trans ?_)⟩
  ring

/-- Further words without an error do not hide one. -/
theorem hash_zero_ne_zero (h : poly.msb = true) (hone : poly.getLsbD 0 = true) {r : BitVec 8}
    (hr : r ≠ 0) : hash poly r (0 : BitVec w) ≠ 0 := by
  intro heq
  have hdvd := (hash_eq_zero_iff h).mp heq
  rw [toPoly_zero, add_zero] at hdvd
  have hzero := eq_zero_of_dvd_of_degree_lt (dvd_of_dvd_mul_X_pow hone hdvd) (by
    rw [degree_toPoly h]
    exact degree_toPoly_lt r)
  exact hr (toPoly_eq_zero.mp hzero)

/-- The bits of the word that are set lie within eight consecutive ones. -/
def Burst (e : BitVec w) : Prop := ∃ k, ∀ i, e.getLsbD i = true → k ≤ i ∧ i < k + 8

/-- A burst is moved up from its own eight bits. -/
theorem Burst.toPoly {e : BitVec w} (he : Burst e) :
    ∃ b : BitVec 8, ∃ k, toPoly e = toPoly b * X ^ k := by
  obtain ⟨k, hk⟩ := he
  refine ⟨(e >>> k).setWidth 8, k, ?_⟩
  ext i
  rw [coeff_mul_X_pow', coeff_toPoly, coeff_toPoly]
  by_cases hki : k ≤ i
  · rw [if_pos hki, BitVec.getLsbD_setWidth, BitVec.getLsbD_ushiftRight]
    by_cases hlt : i - k < 8
    · simp [hlt, show k + (i - k) = i by omega]
    · have hoff : e.getLsbD i = false := by
        by_contra hon
        have := hk i (by simpa using hon)
        omega
      simp [hlt, hoff]
  · have hoff : e.getLsbD i = false := by
      by_contra hon
      exact hki (hk i (by simpa using hon)).1
    simp [hki, hoff]

/-- A burst is detected in the word that it is in. -/
theorem hash_burst (h : poly.msb = true) (hone : poly.getLsbD 0 = true) {e : BitVec w}
    (he : Burst e) (hne : e ≠ 0) : hash poly 0 e ≠ 0 := by
  intro heq
  have hdvd := (hash_eq_zero_iff h).mp heq
  rw [toPoly_zero, zero_mul, zero_add] at hdvd
  obtain ⟨b, k, hb⟩ := he.toPoly
  rw [hb] at hdvd
  have hzero := eq_zero_of_dvd_of_degree_lt (dvd_of_dvd_mul_X_pow hone hdvd) (by
    rw [degree_toPoly h]
    exact degree_toPoly_lt b)
  rw [hzero, zero_mul] at hb
  exact hne (toPoly_eq_zero.mp hb)

theorem chain_zeros (h : poly.msb = true) {words : List (BitVec w)} (hzero : ∀ x ∈ words, x = 0) :
    chain poly 0 words = 0 := by
  induction words with
  | nil => rfl
  | cons x words ih =>
    obtain rfl := hzero x (List.mem_cons_self ..)
    have hhash : hash poly 0 (0 : BitVec w) = 0 := by
      rw [hash_eq_zero_iff h, toPoly_zero, toPoly_zero]
      simp
    rw [chain_cons, hhash]
    exact ih fun y hy => hzero y (List.mem_cons_of_mem _ hy)

theorem chain_zeros_ne_zero (h : poly.msb = true) (hone : poly.getLsbD 0 = true) {r : BitVec 8}
    (hr : r ≠ 0) {words : List (BitVec w)} (hzero : ∀ x ∈ words, x = 0) :
    chain poly r words ≠ 0 := by
  induction words generalizing r with
  | nil => exact hr
  | cons x words ih =>
    obtain rfl := hzero x (List.mem_cons_self ..)
    exact ih (hash_zero_ne_zero h hone hr) fun y hy => hzero y (List.mem_cons_of_mem _ hy)

/-- Exactly one word has an error, and it is a burst. -/
def BurstError (errors : List (BitVec w)) : Prop :=
  ∃ before e behind, errors = before ++ e :: behind ∧ (∀ x ∈ before, x = 0) ∧
    (∀ x ∈ behind, x = 0) ∧ e ≠ 0 ∧ Burst e

/-- **A burst in one word is detected.** -/
theorem chain_burst (h : poly.msb = true) (hone : poly.getLsbD 0 = true) (init : BitVec 8)
    {words errors : List (BitVec w)} (hlen : words.length = errors.length)
    (hwords : chain poly init words = 0) (herrors : BurstError errors) :
    chain poly init (corrupt words errors) ≠ 0 := by
  refine chain_corrupt_ne_zero h init hlen hwords ?_
  obtain ⟨before, e, behind, rfl, hbefore, hbehind, hne, hburst⟩ := herrors
  rw [chain_append, chain_zeros h hbefore, chain_cons]
  exact chain_zeros_ne_zero h hone (hash_burst h hone hburst hne) hbehind

/-! ## An odd number of bits -/

/-- How many bits are set. -/
def weight (x : BitVec w) : ℕ := ((Finset.range w).filter fun i => x.getLsbD i = true).card

/-- The value at one is the parity of the bits that are set. -/
theorem eval_toPoly (x : BitVec w) : (toPoly x).eval 1 = (weight x : ZMod 2) := by
  rw [toPoly, eval_finsetSum, weight, Finset.card_filter, Nat.cast_sum]
  refine Finset.sum_congr rfl fun i _ => ?_
  split <;> simp

/-- A divisor with an even number of terms keeps the parity. -/
theorem eval_hash (h : poly.msb = true) (heven : Even (weight poly)) (init : BitVec 8)
    (bits : BitVec w) :
    (toPoly (hash poly init bits)).eval 1 = (toPoly init).eval 1 + (toPoly bits).eval 1 := by
  have hroot : (toPoly poly).eval 1 = 0 := by
    rw [eval_toPoly]
    exact (ZMod.natCast_eq_zero_iff_even).mpr heven
  have hdiv := congrArg (eval 1)
    (modByMonic_add_div (toPoly init * X ^ w + toPoly bits) (toPoly poly))
  rw [eval_add, eval_mul, hroot, zero_mul, add_zero, ← toPoly_hash h] at hdiv
  simpa using hdiv

theorem eval_chain (h : poly.msb = true) (heven : Even (weight poly)) (init : BitVec 8)
    (words : List (BitVec w)) :
    (toPoly (chain poly init words)).eval 1 =
      (toPoly init).eval 1 + ((words.map weight).sum : ℕ) := by
  induction words generalizing init with
  | nil => simp
  | cons x words ih =>
    rw [chain_cons, ih, eval_hash h heven, eval_toPoly x, List.map_cons, List.sum_cons,
      Nat.cast_add, add_assoc]

/-- **An odd number of errors is detected**, in whatever words they are. -/
theorem chain_odd (h : poly.msb = true) (heven : Even (weight poly)) (init : BitVec 8)
    {words errors : List (BitVec w)} (hlen : words.length = errors.length)
    (hwords : chain poly init words = 0) (herrors : Odd (errors.map weight).sum) :
    chain poly init (corrupt words errors) ≠ 0 := by
  refine chain_corrupt_ne_zero h init hlen hwords fun hzero => ?_
  have heval := eval_chain h heven 0 errors
  rw [hzero, toPoly_zero, eval_zero, zero_add] at heval
  exact (Nat.not_even_iff_odd.mpr herrors) ((ZMod.natCast_eq_zero_iff_even).mp heval.symm)

end Crc

end LeapPlatforms
