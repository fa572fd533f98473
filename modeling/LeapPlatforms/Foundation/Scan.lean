import Mathlib.Algebra.Order.Ring.Nat
import Mathlib.Data.List.TakeWhile

/-!
# Printing and scanning text

The conversions of C's formatted input and output that keep small records in text files: an
integer in decimal, and a word that ends at white space. Text is a list of characters, and a scan
returns what it has read with the text it has left, or nothing when there is no match.

What a scan returns is a value for every text, printed by this library or not. The round trips
say what it returns on printed text; they are stated with an arbitrary rest, so that they compose
in the order of the conversions of a format.

## Main definitions

* `isSpace`, `skipSpace`
* `showInt`, `scanInt` — `%d`
* `scanWord` — `%Ns`; `firstWord` is what it reads

## Main results

* `scanInt_showInt`, `scanInt_space`
* `scanWord_eq_none`, `scanWord_firstWord`
* `firstWord_eq_self_iff`, `firstWord_firstWord`
-/

namespace LeapPlatforms

namespace Scan

/-- Text as the stream functions see it. -/
abbrev Text := List Char

/-- White space of the default locale. -/
def isSpace (c : Char) : Bool :=
  c = ' ' || c = '\t' || c = '\n' || c = '\x0b' || c = '\x0c' || c = '\r'

/-- White space in a format, and the white space that most conversions skip first. -/
def skipSpace (t : Text) : Text := t.dropWhile isSpace

/-! ## Integers -/

/-- `%d` on output. -/
def showInt : ℤ → Text
  | .ofNat n => Nat.toDigits 10 n
  | .negSucc n => '-' :: Nat.toDigits 10 (n + 1)

/-- The digits at the front of `t`, read as a number with the sign `sign`. -/
def scanDigits (sign : ℤ) (t : Text) : Option (ℤ × Text) :=
  if t.takeWhile Char.isDigit = [] then none
  else some (sign * Nat.ofDigitChars 10 (t.takeWhile Char.isDigit) 0, t.dropWhile Char.isDigit)

/-- `%d` on input: white space, a sign that may be missing, and at least one digit. -/
def scanInt (t : Text) : Option (ℤ × Text) :=
  match skipSpace t with
  | '-' :: t => scanDigits (-1) t
  | '+' :: t => scanDigits 1 t
  | t => scanDigits 1 t

theorem isSpace_of_isDigit {c : Char} (h : c.isDigit = true) : isSpace c = false := by
  have h48 : 48 ≤ c.toNat := (Char.isDigit_iff_toNat.mp h).1
  have hne : ∀ d : Char, d.toNat < 48 → c ≠ d := by
    intro d hd hcd
    rw [hcd] at h48
    omega
  simp [isSpace, hne]

@[simp] theorem skipSpace_space (t : Text) : skipSpace (' ' :: t) = skipSpace t := by
  simp [skipSpace, isSpace]

@[simp] theorem skipSpace_nil : skipSpace [] = [] := rfl

theorem skipSpace_cons {c : Char} (h : isSpace c = false) (t : Text) :
    skipSpace (c :: t) = c :: t := by
  simp [skipSpace, h]

/-- A separating space is skipped by the next conversion. -/
@[simp] theorem scanInt_space (t : Text) : scanInt (' ' :: t) = scanInt t := by
  simp [scanInt]

/-- Printed digits are read back, up to the first character that is none. -/
theorem scanDigits_toDigits (sign : ℤ) (n : ℕ) {c : Char} (hc : c.isDigit = false) (t : Text) :
    scanDigits sign (Nat.toDigits 10 n ++ c :: t) = some (sign * n, c :: t) := by
  have hdigits : ∀ d ∈ Nat.toDigits 10 n, d.isDigit = true :=
    fun d hd => Nat.isDigit_of_mem_toDigits (by omega) (by omega) hd
  have htake : (Nat.toDigits 10 n ++ c :: t).takeWhile Char.isDigit = Nat.toDigits 10 n := by
    rw [List.takeWhile_append_of_pos hdigits]
    simp [hc]
  have hdrop : (Nat.toDigits 10 n ++ c :: t).dropWhile Char.isDigit = c :: t := by
    rw [List.dropWhile_append_of_pos hdigits]
    simp [hc]
  rw [scanDigits, htake, hdrop, if_neg Nat.toDigits_ne_nil, Nat.ofDigitChars_ten_toDigits]

/-- **Integers round trip.** -/
theorem scanInt_showInt (z : ℤ) {c : Char} (hc : c.isDigit = false) (t : Text) :
    scanInt (showInt z ++ c :: t) = some (z, c :: t) := by
  rcases z with n | n
  · -- The first digit is neither white space nor a sign.
    rcases hd : Nat.toDigits 10 n with _ | ⟨d, ds⟩
    · exact absurd hd Nat.toDigits_ne_nil
    have hdigit : d.isDigit = true :=
      Nat.isDigit_of_mem_toDigits (b := 10) (n := n) (by omega) (by omega) (by simp [hd])
    have hminus : d ≠ '-' := by rintro rfl; simp at hdigit
    have hplus : d ≠ '+' := by rintro rfl; simp at hdigit
    have hscan := scanDigits_toDigits 1 n hc t
    rw [hd] at hscan
    simp only [scanInt, showInt, hd, List.cons_append,
      skipSpace_cons (isSpace_of_isDigit hdigit)]
    simpa [hminus, hplus] using hscan
  · have hscan := scanDigits_toDigits (-1) (n + 1) hc t
    rw [showInt, List.cons_append, scanInt, skipSpace_cons (by decide)]
    simpa [Int.negSucc_eq] using hscan

/-! ## Words -/

/-- The word that `%Ns` reads: white space is skipped, and the word goes on to the next white
space or to `width` characters. -/
def firstWord (width : ℕ) (t : Text) : Text :=
  ((skipSpace t).takeWhile fun c => !isSpace c).take width

/-- `%Ns` on input. -/
def scanWord (width : ℕ) (t : Text) : Option Text :=
  if firstWord width t = [] then none else some (firstWord width t)

theorem scanWord_eq_none {width : ℕ} {t : Text} (h : firstWord width t = []) :
    scanWord width t = none :=
  if_pos h

theorem scanWord_firstWord {width : ℕ} {t : Text} (h : firstWord width t ≠ []) :
    scanWord width t = some (firstWord width t) :=
  if_neg h

@[simp] theorem firstWord_space (width : ℕ) (t : Text) :
    firstWord width (' ' :: t) = firstWord width t := by
  simp [firstWord]

/-- White space after a word does not change what is read. -/
theorem firstWord_append_newline (width : ℕ) (t : Text) :
    firstWord width (t ++ ['\n']) = firstWord width t := by
  have hnl : isSpace '\n' = true := by decide
  induction t with
  | nil => simp [firstWord, skipSpace, hnl]
  | cons c t ih =>
    by_cases hc : isSpace c = true
    · simpa [firstWord, skipSpace, hc] using ih
    · have hword : (t ++ ['\n']).takeWhile (fun c => !isSpace c) =
          t.takeWhile fun c => !isSpace c := by
        clear ih
        induction t with
        | nil => simp [hnl]
        | cons d t ih =>
          by_cases hd : isSpace d = true
          · simp [hd]
          · simp [hd, ih]
      simp [firstWord, skipSpace, hc, hword]

theorem isSpace_of_mem_firstWord {width : ℕ} {t : Text} {c : Char} (h : c ∈ firstWord width t) :
    isSpace c = false := by
  have hword := List.mem_takeWhile_imp (List.mem_of_mem_take h)
  simpa using hword

theorem length_firstWord_le (width : ℕ) (t : Text) : (firstWord width t).length ≤ width :=
  List.length_take_le ..

/-- **Texts that are words** are those without white space, if they are not too long. -/
theorem firstWord_eq_self_iff {width : ℕ} {t : Text} :
    firstWord width t = t ↔ (∀ c ∈ t, isSpace c = false) ∧ t.length ≤ width := by
  constructor
  · intro h
    rw [← h]
    exact ⟨fun c => isSpace_of_mem_firstWord, length_firstWord_le width t⟩
  · rintro ⟨hword, hlength⟩
    have hskip : skipSpace t = t := by
      cases t with
      | nil => rfl
      | cons c t => exact skipSpace_cons (hword c List.mem_cons_self) t
    have htake : t.takeWhile (fun c => !isSpace c) = t :=
      List.takeWhile_eq_self_iff.mpr fun c hc => by simp [hword c hc]
    rw [firstWord, hskip, htake, List.take_of_length_le hlength]

/-- What is read once is read again. -/
@[simp] theorem firstWord_firstWord (width : ℕ) (t : Text) :
    firstWord width (firstWord width t) = firstWord width t :=
  firstWord_eq_self_iff.mpr ⟨fun _ => isSpace_of_mem_firstWord, length_firstWord_le width t⟩

end Scan

end LeapPlatforms
