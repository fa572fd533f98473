import Mathlib.Tactic.Common

/-!
# Acquiring in stages

A resource is acquired in stages, each of which may be refused; then everything that was acquired is
released, and the error is returned. It is released in the opposite order. A switch whose cases fall
through enters the stages in the middle: it is the list of the stages from there on.

A stage may also be a fault: it uses what is not there. The rules say that there is none, when each
stage gets what the stages before it left.

## Main definitions

* `Outcome`, `climb` — the stages in their order
* `descend` — the releases in theirs
* `Rises`, `Falls`, `Releases` — what the stages and the releases are asked for

## Main results

* `climb_spec`, `descend_spec`
-/

namespace LeapPlatforms

namespace Ladder

/-- What a stage comes to. -/
inductive Outcome (ε σ : Type*)
  | done (s : σ)
  | refused (e : ε) (s : σ)
  | fault

variable {ε σ : Type*}

/-- A call that cannot be refused. It is a fault when it gives nothing. -/
def Outcome.ofOption : Option σ → Outcome ε σ
  | some s => .done s
  | none => .fault

/-- The stages, one after the other; what was acquired is released when one is refused. -/
def climb (release : σ → Option σ) : List (σ → Outcome ε σ) → σ → Outcome ε σ
  | [], s => .done s
  | stage :: stages, s =>
    match stage s with
    | .done s => climb release stages s
    | .refused e s =>
      match release s with
      | some s => .refused e s
      | none => .fault
    | .fault => .fault

/-- The releases, one after the other. -/
def descend : List (σ → Option σ) → σ → Option σ
  | [], s => some s
  | case :: cases, s => (case s).bind (descend cases)

section Rules

variable (Holds : ℕ → σ → Prop)

/-- A stage takes a level to the next, or is refused and leaves the level. -/
def Rises (level : ℕ) (stage : σ → Outcome ε σ) : Prop :=
  ∀ s, Holds level s →
    (∃ s', stage s = .done s' ∧ Holds (level + 1) s') ∨
      ∃ e s', stage s = .refused e s' ∧ Holds level s'

/-- Each of the stages takes its level to the next. -/
def RisesFrom : ℕ → List (σ → Outcome ε σ) → Prop
  | _, [] => True
  | level, stage :: stages => Rises Holds level stage ∧ RisesFrom (level + 1) stages

/-- A release takes a level to the one below. -/
def Falls (level : ℕ) (case : σ → Option σ) : Prop :=
  ∀ s, Holds level s → ∃ s', case s = some s' ∧ Holds (level - 1) s'

/-- Each of the releases takes its level to the one below. -/
def FallsFrom : ℕ → List (σ → Option σ) → Prop
  | _, [] => True
  | level, case :: cases => Falls Holds level case ∧ FallsFrom (level - 1) cases

/-- What is held at a level is released. -/
def Releases (Rests : σ → Prop) (release : σ → Option σ) : Prop :=
  ∀ level s, Holds level s → ∃ s', release s = some s' ∧ Rests s'

end Rules

variable {Holds : ℕ → σ → Prop} {Rests : σ → Prop} {release : σ → Option σ}

/-- A switch that enters the stages in the middle. -/
theorem RisesFrom.drop {stages : List (σ → Outcome ε σ)} {level : ℕ}
    (h : RisesFrom Holds level stages) (n : ℕ) :
    RisesFrom Holds (level + n) (stages.drop n) := by
  induction n generalizing level stages with
  | zero => exact h
  | succ n ih =>
    cases stages with
    | nil => trivial
    | cons stage stages =>
      rw [List.drop_succ_cons, Nat.add_comm n, ← Nat.add_assoc]
      exact ih h.2

/-- A switch that enters the releases in the middle. -/
theorem FallsFrom.drop {cases : List (σ → Option σ)} {level : ℕ}
    (h : FallsFrom Holds level cases) (n : ℕ) :
    FallsFrom Holds (level - n) (cases.drop n) := by
  induction n generalizing level cases with
  | zero => exact h
  | succ n ih =>
    cases cases with
    | nil => trivial
    | cons case cases =>
      rw [List.drop_succ_cons, Nat.add_comm n, ← Nat.sub_sub]
      exact ih h.2

/-- **Stages.** From a level on, everything is acquired or nothing is held. -/
theorem climb_spec (hrelease : Releases Holds Rests release) {stages : List (σ → Outcome ε σ)}
    {level : ℕ} (hstages : RisesFrom Holds level stages) {s : σ} (hs : Holds level s) :
    (∃ s', climb release stages s = .done s' ∧ Holds (level + stages.length) s') ∨
      ∃ e s', climb release stages s = .refused e s' ∧ Rests s' := by
  induction stages generalizing level s with
  | nil => exact .inl ⟨s, rfl, hs⟩
  | cons stage stages ih =>
    rw [climb]
    rcases hstages.1 s hs with ⟨s₁, hstage, hs₁⟩ | ⟨e, s₁, hstage, hs₁⟩
    · rw [hstage, List.length_cons, Nat.add_comm stages.length, ← Nat.add_assoc]
      exact ih hstages.2 hs₁
    · obtain ⟨s₂, hrel, hrests⟩ := hrelease _ s₁ hs₁
      rw [hstage]
      simp only [hrel]
      exact .inr ⟨e, s₂, rfl, hrests⟩

/-- **Releases.** From a level on, everything is released. -/
theorem descend_spec {cases : List (σ → Option σ)} {level : ℕ}
    (hcases : FallsFrom Holds level cases) {s : σ} (hs : Holds level s) :
    ∃ s', descend cases s = some s' ∧ Holds (level - cases.length) s' := by
  induction cases generalizing level s with
  | nil => exact ⟨s, rfl, hs⟩
  | cons case cases ih =>
    obtain ⟨s₁, hcase, hs₁⟩ := hcases.1 s hs
    rw [descend, hcase, Option.bind_some, List.length_cons, Nat.add_comm cases.length,
      ← Nat.sub_sub]
    exact ih hcases.2 hs₁

end Ladder

end LeapPlatforms
