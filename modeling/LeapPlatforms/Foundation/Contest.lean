import Mathlib.Data.List.Induction
import Mathlib.Tactic.Common

/-!
# Keeping the best so far

A loop goes through a list and keeps one entry. The entry at hand takes its place if a relation says
so, which need not be an order, so what is kept at the end need not be best in any sense. It is the
end of a chain: from each entry the chain goes to the first behind it that takes its place.

## Main definitions

* `Contest.champion` — what is kept
* `Contest.Follows` — the links of the chain

## Main results

* `champion_split` — nothing behind what is kept takes its place
* `champion_append_induction` — what the links keep, the loop keeps
-/

namespace LeapPlatforms

namespace Contest

variable {α : Type*}

/-- `q` is the first behind some place of `p` that takes the place of `p`. -/
def Follows (Replaces : α → α → Prop) (l : List α) (p q : α) : Prop :=
  ∃ pre mid post, l = pre ++ p :: (mid ++ q :: post) ∧ (∀ r ∈ mid, ¬ Replaces p r) ∧ Replaces p q

variable (Replaces : α → α → Prop) [DecidableRel Replaces]

/-- The one that is kept of two. -/
def winner (best c : α) : α := if Replaces best c then c else best

/-- What is kept, from `start` on. -/
def champion (start : α) (l : List α) : α := l.foldl (winner Replaces) start

@[simp] theorem champion_nil (start : α) : champion Replaces start [] = start := rfl

theorem champion_append_singleton (start : α) (l : List α) (c : α) :
    champion Replaces start (l ++ [c]) = winner Replaces (champion Replaces start l) c := by
  rw [champion, List.foldl_append]
  rfl

theorem champion_append (start : α) (l₁ l₂ : List α) :
    champion Replaces start (l₁ ++ l₂) = champion Replaces (champion Replaces start l₁) l₂ :=
  List.foldl_append

/-- Nothing behind what is kept takes its place. -/
theorem champion_split (start : α) (l : List α) :
    ∃ pre mid, start :: l = pre ++ champion Replaces start l :: mid ∧
      ∀ r ∈ mid, ¬ Replaces (champion Replaces start l) r := by
  induction l using List.reverseRecOn with
  | nil => exact ⟨[], [], rfl, by simp⟩
  | append_singleton l c ih =>
    obtain ⟨pre, mid, hsplit, hmid⟩ := ih
    rw [champion_append_singleton, winner]
    split
    · next hreplaces =>
      refine ⟨start :: l, [], by simp, by simp⟩
    · next hkept =>
      refine ⟨pre, mid ++ [c], ?_, fun r hr => ?_⟩
      · rw [← List.cons_append, hsplit]
        simp
      · rcases List.mem_append.mp hr with hr | hr
        · exact hmid r hr
        · rw [List.mem_singleton.mp hr]
          exact hkept

theorem champion_mem (start : α) (l : List α) : champion Replaces start l ∈ start :: l := by
  obtain ⟨pre, mid, hsplit, -⟩ := champion_split Replaces start l
  rw [hsplit]
  simp

variable {Replaces}

/-- **The chain.** What each link keeps is so at the end if it is so at some place. -/
theorem champion_append_induction {P : α → Prop} {start : α} {l l₁ : List α} (l₂ : List α)
    {l₃ : List α} (hl : l = l₁ ++ l₂ ++ l₃)
    (hlink : ∀ p q, Follows Replaces (start :: l) p q → P p → P q)
    (h : P (champion Replaces start l₁)) : P (champion Replaces start (l₁ ++ l₂)) := by
  induction l₂ using List.reverseRecOn generalizing l₃ with
  | nil =>
    rw [List.append_nil]
    exact h
  | append_singleton l₂ c ih =>
    have hl' : l = l₁ ++ l₂ ++ (c :: l₃) := by rw [hl]; simp
    rw [← List.append_assoc, champion_append_singleton, winner]
    split
    · next hreplaces =>
      obtain ⟨pre, mid, hsplit, hmid⟩ := champion_split Replaces start (l₁ ++ l₂)
      refine hlink _ c ⟨pre, mid, l₃, ?_, hmid, hreplaces⟩ (ih hl')
      rw [hl', ← List.cons_append, hsplit]
      simp
    · exact ih hl'

end Contest

end LeapPlatforms
