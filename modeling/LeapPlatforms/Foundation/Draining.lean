import Mathlib.Data.Nat.Notation
import Mathlib.Logic.Relation

/-!
# What can always be drained

Items move through the stations of a system. Each state has a rank: how far its items still have to
go. Where some step can always lower a rank that is not zero, there are steps to a state where
nothing is left on the way, from every state.

## Main definitions

* `Progresses` — some step lowers the rank

## Main results

* `Progresses.exists_drained`
-/

namespace LeapPlatforms

namespace Draining

variable {σ : Type*}

/-- As long as something is on the way, some step moves it on. The condition is kept. -/
def Progresses (step : σ → σ → Prop) (rank : σ → ℕ) (P : σ → Prop) : Prop :=
  ∀ s, P s → 0 < rank s → ∃ t, step s t ∧ P t ∧ rank t < rank s

/-- **Draining.** Nothing is left on the way, some steps from now. -/
theorem Progresses.exists_drained {step : σ → σ → Prop} {rank : σ → ℕ} {P : σ → Prop}
    (h : Progresses step rank P) {s : σ} (hs : P s) :
    ∃ t, Relation.ReflTransGen step s t ∧ P t ∧ rank t = 0 := by
  induction hn : rank s using Nat.strongRecOn generalizing s with
  | ind n ih =>
    rcases Nat.eq_zero_or_pos n with rfl | hpos
    · exact ⟨s, .refl, hs, hn⟩
    · obtain ⟨t, hst, ht, hlt⟩ := h s hs (hn ▸ hpos)
      obtain ⟨u, htu, hu, hzero⟩ := ih (rank t) (hn ▸ hlt) ht rfl
      exact ⟨u, .head hst htu, hu, hzero⟩

end Draining

end LeapPlatforms
