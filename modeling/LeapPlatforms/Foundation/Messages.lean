import Mathlib.Data.List.Basic
import Mathlib.Tactic.Common

/-!
# Messages in a stream

A stream of beats in which the first beat of a message says how many more belong to it. Two views of
it: how many beats the message begun last is still waited for, and the list of the messages.

## Main definitions

* `Messages.remaining` — the beats still to come after a stream
* `Messages.IsMessage`, `Messages.Complete`, `Messages.Open`

## Main results

* `remaining_append`
* `Complete.header`, `Complete.begin`, `Open.next`, `Open.finish` — one more beat
* `Open.unique`
* `Complete.remaining_eq`, `Open.remaining_eq` — the two views agree
-/

namespace LeapPlatforms

namespace Messages

variable {β : Type*} (len : β → ℕ)

/-- The beats still to come of a message, after a stream that began with `r` to come. -/
def remaining : ℕ → List β → ℕ
  | r, [] => r
  | 0, b :: l => remaining (len b) l
  | r + 1, _ :: l => remaining r l

@[simp] theorem remaining_nil (r : ℕ) : remaining len r [] = r := by
  cases r <;> rfl

@[simp] theorem remaining_zero_cons (b : β) (l : List β) :
    remaining len 0 (b :: l) = remaining len (len b) l := rfl

@[simp] theorem remaining_succ_cons (r : ℕ) (b : β) (l : List β) :
    remaining len (r + 1) (b :: l) = remaining len r l := rfl

theorem remaining_append (r : ℕ) (l₁ l₂ : List β) :
    remaining len r (l₁ ++ l₂) = remaining len (remaining len r l₁) l₂ := by
  induction l₁ generalizing r with
  | nil => rw [List.nil_append, remaining_nil]
  | cons b l ih =>
    cases r with
    | zero => exact ih _
    | succ r => exact ih r

theorem remaining_map {γ : Type*} (f : γ → β) (r : ℕ) (l : List γ) :
    remaining len r (l.map f) = remaining (fun c => len (f c)) r l := by
  induction l generalizing r with
  | nil => rw [List.map_nil, remaining_nil, remaining_nil]
  | cons c l ih =>
    cases r with
    | zero => exact ih _
    | succ r => exact ih r

/-- A stream that is all payload. -/
theorem remaining_of_le {r : ℕ} {l : List β} (h : l.length ≤ r) :
    remaining len r l = r - l.length := by
  induction l generalizing r with
  | nil => rw [remaining_nil, List.length_nil, Nat.sub_zero]
  | cons b l ih =>
    rw [List.length_cons] at h
    obtain ⟨r, rfl⟩ : ∃ r', r = r' + 1 := ⟨r - 1, by omega⟩
    rw [remaining_succ_cons, ih (by omega), List.length_cons]
    omega

/-- Whoever waits for `r` more beats gets nothing whole from fewer. -/
theorem le_length_of_remaining {r : ℕ} {l : List β} (h : remaining len r l = 0) :
    r ≤ l.length := by
  by_contra hlt
  rw [remaining_of_le len (by omega)] at h
  omega

/-! ### Lists of messages -/

variable (head : β → Prop) (fits : β → β → Prop)

/-- A first beat with as many more as it says. -/
def IsMessage (m : List β) : Prop :=
  ∃ h payload, m = h :: payload ∧ head h ∧ payload.length = len h ∧ ∀ x ∈ payload, fits h x

/-- Nothing but whole messages. -/
def Complete (l : List β) : Prop :=
  ∃ ms : List (List β), (∀ m ∈ ms, IsMessage len head fits m) ∧ ms.flatten = l

/-- Whole messages, and then the first beats of one more. -/
def Open (l : List β) (h : β) (payload : List β) : Prop :=
  ∃ l₀, Complete len head fits l₀ ∧ l = l₀ ++ h :: payload ∧ head h ∧ payload.length < len h ∧
    ∀ x ∈ payload, fits h x

variable {len head fits} {l : List β} {h x : β} {payload : List β}

theorem complete_nil : Complete len head fits [] := ⟨[], by simp, rfl⟩

theorem Complete.append {l' : List β} (hl : Complete len head fits l)
    (hl' : Complete len head fits l') : Complete len head fits (l ++ l') := by
  obtain ⟨ms, hms, rfl⟩ := hl
  obtain ⟨ms', hms', rfl⟩ := hl'
  refine ⟨ms ++ ms', fun m hm => ?_, List.flatten_append⟩
  rcases List.mem_append.mp hm with hm | hm
  · exact hms m hm
  · exact hms' m hm

theorem complete_of_isMessage (hl : IsMessage len head fits l) : Complete len head fits l :=
  ⟨[l], by simpa using hl, by simp⟩

/-- A message of one beat. -/
theorem Complete.header (hl : Complete len head fits l) (hh : head h) (hlen : len h = 0) :
    Complete len head fits (l ++ [h]) :=
  hl.append (complete_of_isMessage ⟨h, [], rfl, hh, hlen.symm, by simp⟩)

/-- The first beat of a longer message. -/
theorem Complete.begin (hl : Complete len head fits l) (hh : head h) (hlen : 0 < len h) :
    Open len head fits (l ++ [h]) h [] :=
  ⟨l, hl, rfl, hh, hlen, by simp⟩

/-- One more beat, and not the last. -/
theorem Open.next (hl : Open len head fits l h payload) (hx : fits h x)
    (hlen : payload.length + 1 < len h) : Open len head fits (l ++ [x]) h (payload ++ [x]) := by
  obtain ⟨l₀, hl₀, rfl, hh, _, hfits⟩ := hl
  refine ⟨l₀, hl₀, by simp, hh, by simpa using hlen, fun y hy => ?_⟩
  rcases List.mem_append.mp hy with hy | hy
  · exact hfits y hy
  · rwa [List.mem_singleton.mp hy]

/-- The last beat. -/
theorem Open.finish (hl : Open len head fits l h payload) (hx : fits h x)
    (hlen : payload.length + 1 = len h) : Complete len head fits (l ++ [x]) := by
  obtain ⟨l₀, hl₀, rfl, hh, _, hfits⟩ := hl
  rw [List.append_assoc, List.cons_append]
  refine hl₀.append (complete_of_isMessage ⟨h, payload ++ [x], rfl, hh, by simpa using hlen,
    fun y hy => ?_⟩)
  rcases List.mem_append.mp hy with hy | hy
  · exact hfits y hy
  · rwa [List.mem_singleton.mp hy]

/-- No beat begins a message inside another, so the message begun last is the only one. -/
theorem Open.unique (hfits : ∀ a b, fits a b → ¬ head b) {h' : β} {payload' : List β}
    (hl : Open len head fits l h payload) (hl' : Open len head fits l h' payload') :
    h = h' ∧ payload = payload' := by
  obtain ⟨l₀, _, rfl, hh, _, hpayload⟩ := hl
  obtain ⟨l₀', _, heq, hh', _, hpayload'⟩ := hl'
  rcases List.append_eq_append_iff.mp heq with ⟨a, _, ha⟩ | ⟨a, _, ha⟩
  · cases a with
    | nil => exact List.cons.inj ha
    | cons b a =>
      rw [List.cons_append] at ha
      obtain ⟨rfl, rfl⟩ := List.cons.inj ha
      exact absurd hh' (hfits _ _ (hpayload h' (by simp)))
  · cases a with
    | nil =>
      obtain ⟨rfl, rfl⟩ := List.cons.inj ha
      exact ⟨rfl, rfl⟩
    | cons b a =>
      rw [List.cons_append] at ha
      obtain ⟨rfl, rfl⟩ := List.cons.inj ha
      exact absurd hh (hfits _ _ (hpayload' h (by simp)))

theorem Complete.remaining_eq (hl : Complete len head fits l) : remaining len 0 l = 0 := by
  obtain ⟨ms, hms, rfl⟩ := hl
  induction ms with
  | nil => rfl
  | cons m ms ih =>
    obtain ⟨h, payload, rfl, _, hlen, _⟩ := hms m (by simp)
    rw [List.flatten_cons, List.cons_append, remaining_zero_cons, remaining_append,
      remaining_of_le len (Nat.le_of_eq hlen), hlen, Nat.sub_self]
    exact ih fun m hm => hms m (List.mem_cons_of_mem _ hm)

theorem Open.remaining_eq (hl : Open len head fits l h payload) :
    remaining len 0 l = len h - payload.length := by
  obtain ⟨l₀, hl₀, rfl, _, hlen, _⟩ := hl
  rw [remaining_append, hl₀.remaining_eq, remaining_zero_cons, remaining_of_le len (by omega)]

end Messages

end LeapPlatforms
