import LeapPlatforms.Foundation.Scan
import Mathlib.Data.List.DropRight

/-!
# Scan sets, lines and stripped text

The conversions of C's formatted input that read as long as characters are in a set, the reading of
a line into a buffer of a given size, and text without white space around it.

## Main definitions

* `scanSet`, `literal` — `%[..]`, and a character of a format
* `strip`, `rstrip`
* `padRight` — `%-Ns` on output
* `fgets`

## Main results

* `scanSet_append`
* `strip_eq_self_iff`, `strip_append_blanks`, `rstrip_append_blanks`
* `fgets_line` — a line that fits is read whole
-/

namespace LeapPlatforms

namespace Scan

/-! ### Conversions -/

/-- `%[..]`: at least one character of the set. -/
def scanSet (p : Char → Bool) (t : Text) : Option (Text × Text) :=
  if t.takeWhile p = [] then none else some (t.takeWhile p, t.dropWhile p)

/-- A character of a format that is not white space. -/
def literal (c : Char) : Text → Option Text
  | [] => none
  | d :: t => if d = c then some t else none

@[simp] theorem literal_cons (c : Char) (t : Text) : literal c (c :: t) = some t := if_pos rfl

theorem literal_of_ne {c : Char} {t : Text} (h : t.head? ≠ some c) : literal c t = none := by
  cases t with
  | nil => rfl
  | cons d t => exact if_neg fun hd => h (congrArg some hd)

@[simp] theorem scanSet_nil (p : Char → Bool) : scanSet p [] = none := rfl

/-- What is in the set is read, up to what is not. -/
theorem scanSet_append {p : Char → Bool} {a t : Text} (ha : ∀ c ∈ a, p c = true) (hne : a ≠ [])
    (ht : ∀ c ∈ t.head?, p c = false) : scanSet p (a ++ t) = some (a, t) := by
  have htake : t.takeWhile p = [] := by
    cases t with
    | nil => rfl
    | cons c t => exact List.takeWhile_cons_of_neg (by rw [ht c rfl]; exact Bool.false_ne_true)
  have hdrop : t.dropWhile p = t := by
    cases t with
    | nil => rfl
    | cons c t => exact List.dropWhile_cons_of_neg (by rw [ht c rfl]; exact Bool.false_ne_true)
  rw [scanSet, List.takeWhile_append_of_pos ha, List.dropWhile_append_of_pos ha, htake, hdrop,
    List.append_nil, if_neg hne]

theorem scanSet_all {p : Char → Bool} {a : Text} (ha : ∀ c ∈ a, p c = true) (hne : a ≠ []) :
    scanSet p a = some (a, []) := by
  have h := scanSet_append (t := []) ha hne (fun c hc => by cases hc)
  rwa [List.append_nil] at h

/-! ### White space around a text -/

/-- Without the white space at the end. -/
def rstrip (t : Text) : Text := t.rdropWhile isSpace

/-- Without the white space at the beginning and at the end. -/
def strip (t : Text) : Text := rstrip (t.dropWhile isSpace)

/-- `%-Ns` on output. -/
def padRight (width : ℕ) (s : Text) : Text := s ++ List.replicate (width - s.length) ' '

theorem length_padRight (width : ℕ) (s : Text) :
    (padRight width s).length = max width s.length := by
  rw [padRight, List.length_append, List.length_replicate]
  omega

@[simp] theorem rstrip_nil : rstrip [] = [] := rfl

theorem rstrip_eq_self_iff {t : Text} : rstrip t = t ↔ ∀ c ∈ t.getLast?, isSpace c = false := by
  rw [rstrip, List.rdropWhile_eq_self_iff]
  constructor
  · intro h c hc
    obtain ⟨hne, rfl⟩ := List.mem_getLast?_eq_getLast hc
    exact Bool.eq_false_iff.mpr (h hne)
  · intro h hne
    exact Bool.eq_false_iff.mp (h _ (List.getLast?_eq_some_getLast hne))

/-- Stripped text has no white space at its ends. -/
theorem strip_eq_self_iff {t : Text} :
    strip t = t ↔ (∀ c ∈ t.head?, isSpace c = false) ∧ ∀ c ∈ t.getLast?, isSpace c = false := by
  constructor
  · intro h
    have hdrop : t.dropWhile isSpace = t := by
      have hle : t.length ≤ (t.dropWhile isSpace).length := by
        have hprefix := (List.rdropWhile_prefix isSpace (l := t.dropWhile isSpace)).length_le
        rwa [← rstrip, ← strip, h] at hprefix
      exact (List.dropWhile_suffix isSpace).eq_of_length_le hle
    refine ⟨?_, ?_⟩
    · intro c hc
      cases t with
      | nil => cases hc
      | cons d t =>
        obtain rfl := Option.some.inj hc
        refine Bool.eq_false_iff.mpr fun hspace => ?_
        have hlen := congrArg List.length hdrop
        rw [List.dropWhile_cons_of_pos hspace, List.length_cons] at hlen
        have hle := (List.dropWhile_suffix isSpace (l := t)).length_le
        omega
    · rw [strip, hdrop] at h
      exact rstrip_eq_self_iff.mp h
  · rintro ⟨hhead, hlast⟩
    have hdrop : t.dropWhile isSpace = t := by
      cases t with
      | nil => rfl
      | cons c t => exact skipSpace_cons (hhead c rfl) t
    rw [strip, hdrop]
    exact rstrip_eq_self_iff.mpr hlast

theorem rstrip_append_blanks {t b : Text} (hb : ∀ c ∈ b, isSpace c = true) :
    rstrip (t ++ b) = rstrip t := by
  induction b using List.reverseRecOn with
  | nil => rw [List.append_nil]
  | append_singleton b c ih =>
    have hc : isSpace c = true := hb c (List.mem_append_right _ (List.mem_singleton_self c))
    rw [← List.append_assoc, rstrip, List.rdropWhile_concat_pos _ _ _ hc, ← rstrip]
    exact ih fun d hd => hb d (List.mem_append_left _ hd)

theorem length_rstrip_lt {t : Text} (h : t.getLast? = some '\n') :
    (rstrip t).length < t.length := by
  obtain ⟨s, rfl⟩ := List.getLast?_eq_some_iff.mp h
  have hblank : ∀ c ∈ ['\n'], isSpace c = true := by
    intro c hc
    rw [List.mem_singleton.mp hc]
    rfl
  have hle := (List.rdropWhile_prefix isSpace (l := s)).length_le
  rw [rstrip_append_blanks hblank, List.length_append, List.length_singleton]
  exact Nat.lt_succ_of_le hle

/-- Blanks after a stripped text go away. -/
theorem strip_append_blanks {t b : Text} (ht : strip t = t) (hb : ∀ c ∈ b, isSpace c = true) :
    strip (t ++ b) = t := by
  cases t with
  | nil =>
    rw [List.nil_append, strip, List.dropWhile_eq_nil_iff.mpr hb, rstrip_nil]
  | cons c t =>
    obtain ⟨hhead, hlast⟩ := strip_eq_self_iff.mp ht
    have hdrop : (c :: t ++ b).dropWhile isSpace = c :: t ++ b := skipSpace_cons (hhead c rfl) _
    rw [strip, hdrop, rstrip_append_blanks hb]
    exact rstrip_eq_self_iff.mpr hlast

theorem isSpace_of_mem_replicate {n : ℕ} : ∀ c ∈ List.replicate n ' ', isSpace c = true := by
  intro c hc
  rw [List.eq_of_mem_replicate hc]
  rfl

/-! ### Lines -/

/-- `fgets(s, size, stream)`: what is stored, and the text that is left; nothing at the end. -/
def fgets (size : ℕ) (file : Text) : Option (Text × Text) :=
  if file = [] then none
  else
    let n := min (size - 1) ((file.takeWhile fun c => c != '\n').length + 1)
    some (file.take n, file.drop n)

@[simp] theorem fgets_nil (size : ℕ) : fgets size [] = none := rfl

/-- A line that fits is read whole. -/
theorem fgets_line {size : ℕ} {l t : Text} (hl : '\n' ∉ l) (hsize : l.length + 2 ≤ size) :
    fgets size (l ++ '\n' :: t) = some (l ++ ['\n'], t) := by
  have htake : (l ++ '\n' :: t).takeWhile (fun c => c != '\n') = l := by
    rw [List.takeWhile_append_of_pos, List.takeWhile_cons_of_neg (by decide), List.append_nil]
    intro c hc
    exact bne_iff_ne.mpr fun h => hl (h ▸ hc)
  have hne : l ++ '\n' :: t ≠ [] := List.append_ne_nil_of_right_ne_nil _ (List.cons_ne_nil _ _)
  have hsplit : l ++ '\n' :: t = (l ++ ['\n']) ++ t := by
    rw [List.append_assoc, List.singleton_append]
  have hlen : min (size - 1) (l.length + 1) = (l ++ ['\n']).length := by
    rw [List.length_append, List.length_singleton]
    omega
  simp only [fgets, if_neg hne, htake, hlen]
  rw [hsplit, List.take_left, List.drop_left]

theorem length_fgets_le {size : ℕ} {file l t : Text} (h : fgets size file = some (l, t)) :
    l.length ≤ size - 1 := by
  rw [fgets] at h
  split at h
  · cases h
  · obtain ⟨rfl, -⟩ := Prod.mk.inj (Option.some.inj h)
    rw [List.length_take]
    omega

/-- Something is read while there is text. -/
theorem length_fgets {size : ℕ} (hsize : 2 ≤ size) {file l t : Text}
    (h : fgets size file = some (l, t)) : t.length < file.length := by
  rw [fgets] at h
  split at h
  · cases h
  · next hne =>
    obtain ⟨-, rfl⟩ := Prod.mk.inj (Option.some.inj h)
    have hpos := List.length_pos_iff.mpr hne
    rw [List.length_drop]
    omega

end Scan

end LeapPlatforms
