import Mathlib.Logic.Relation

/-!
# Transition systems, invariants and simulation

The development states every property of a run as a property of the reachable states of a
transition system. This module packages the two inductions over runs that are used everywhere
else, so that no later proof repeats them:

* an invariant of the initial states that every step keeps holds in every reachable state;
* a relation to a second system that every step keeps (the second system may answer with any
  number of its own steps) relates every reachable state to a reachable state of that system.

## Main definitions

* `TransitionSystem`, `TransitionSystem.Reachable`
* `TransitionSystem.Simulates` — a stuttering forward simulation
* `Runs`, `Along`, `StepsMeet` — a run, and what is said of each of its states and steps

## Main results

* `TransitionSystem.Reachable.invariant`, `Reachable.invariant_of_reachable`
* `TransitionSystem.Simulates.reachable`
* `along_iff` — the runs that keep a property are those whose steps meet a condition
-/

namespace LeapPlatforms

/-- A transition system on the states `σ`. -/
structure TransitionSystem (σ : Type*) where
  /-- The states a run may start in. -/
  init : σ → Prop
  /-- One step of a run. -/
  step : σ → σ → Prop

namespace TransitionSystem

variable {σ τ : Type*} {M : TransitionSystem σ} {N : TransitionSystem τ}

/-- The states that some run reaches. -/
inductive Reachable (M : TransitionSystem σ) : σ → Prop
  | init {s : σ} : M.init s → Reachable M s
  | step {s t : σ} : Reachable M s → M.step s t → Reachable M t

theorem Reachable.steps {s t : σ} (hs : M.Reachable s) (h : Relation.ReflTransGen M.step s t) :
    M.Reachable t := by
  induction h with
  | refl => exact hs
  | tail _ hst ih => exact ih.step hst

/-- **Invariants.** What holds initially and is kept by every step holds in every reachable
state. -/
theorem Reachable.invariant {P : σ → Prop} (hinit : ∀ s, M.init s → P s)
    (hstep : ∀ s t, P s → M.step s t → P t) {s : σ} (h : M.Reachable s) : P s := by
  induction h with
  | init h => exact hinit _ h
  | step _ hst ih => exact hstep _ _ ih hst

/-- Invariants relative to reachability: the step may use that its source is reachable, and with
it every invariant proved before. -/
theorem Reachable.invariant_of_reachable {P : σ → Prop} (hinit : ∀ s, M.init s → P s)
    (hstep : ∀ s t, M.Reachable s → P s → M.step s t → P t) {s : σ} (h : M.Reachable s) : P s := by
  induction h with
  | init h => exact hinit _ h
  | step hs hst ih => exact hstep _ _ hs ih hst

/-- What a system reaches, one with more steps reaches. -/
theorem Reachable.mono {s : σ} (h : M.Reachable s) {M' : TransitionSystem σ}
    (hinit : ∀ s, M.init s → M'.init s) (hstep : ∀ s t, M.step s t → M'.step s t) :
    M'.Reachable s := by
  induction h with
  | init h => exact .init (hinit _ h)
  | step _ hst ih => exact ih.step (hstep _ _ hst)

/-- A run that is given by the actions of its steps. -/
theorem Reachable.run {α : Type*} {f : α → σ → Option σ}
    (hf : ∀ a s t, f a s = some t → M.step s t) {as : List α} {s t : σ} (hs : M.Reachable s)
    (h : as.foldlM (fun s a => f a s) s = some t) : M.Reachable t := by
  induction as generalizing s with
  | nil =>
    obtain rfl := Option.some.inj h
    exact hs
  | cons a as ih =>
    rw [List.foldlM_cons] at h
    obtain ⟨u, hu, hrest⟩ := Option.bind_eq_some_iff.mp h
    exact ih (hs.step (hf a s u hu)) hrest

/-- An action, if it is allowed. -/
def attempt {α : Type*} (G : σ → α → Prop) [∀ s a, Decidable (G s a)] (f : σ → α → Option σ) (s : σ)
    (a : α) : Option σ :=
  if G s a then f s a else none

/-- A run that is given by actions that are allowed. -/
theorem Reachable.attempts {α : Type*} {G : σ → α → Prop} [∀ s a, Decidable (G s a)]
    {f : σ → α → Option σ} (hf : ∀ s a t, G s a → f s a = some t → M.step s t) {as : List α} {s t : σ}
    (hs : M.Reachable s) (h : as.foldlM (attempt G f) s = some t) : M.Reachable t := by
  refine hs.run (f := fun a s => attempt G f s a) ?_ h
  intro a s t hst
  rw [attempt] at hst
  split at hst
  · next hguard => exact hf s a t hguard hst
  · cases hst

/-- A forward simulation of `M` by `N`: initial states are related to initial states, and a step
of `M` is answered by any number of steps of `N`. -/
structure Simulates (M : TransitionSystem σ) (N : TransitionSystem τ) (R : σ → τ → Prop) :
    Prop where
  /-- Every initial state has a related initial state. -/
  init : ∀ s, M.init s → ∃ g, N.init g ∧ R s g
  /-- Every step from a related pair can be followed. -/
  step : ∀ s t g, N.Reachable g → R s g → M.step s t →
    ∃ g', Relation.ReflTransGen N.step g g' ∧ R t g'

/-- **Simulation.** Every reachable state is related to a reachable state of the simulating
system, so what holds of all of the latter holds of the former. -/
theorem Simulates.reachable {R : σ → τ → Prop} (h : Simulates M N R) {s : σ}
    (hs : M.Reachable s) : ∃ g, N.Reachable g ∧ R s g := by
  induction hs with
  | init hinit =>
    obtain ⟨g, hg, hR⟩ := h.init _ hinit
    exact ⟨g, .init hg, hR⟩
  | step _ hst ih =>
    obtain ⟨g, hg, hR⟩ := ih
    obtain ⟨g', hsteps, hR'⟩ := h.step _ _ _ hg hR hst
    exact ⟨g', hg.steps hsteps, hR'⟩

end TransitionSystem

section Along

variable {σ α : Type*}

/-- The actions can be taken one after the other. -/
def Runs (E : σ → α → Prop) (f : σ → α → σ) : σ → List α → Prop
  | _, [] => True
  | s, a :: l => E s a ∧ Runs E f (f s a) l

instance decidableRuns (E : σ → α → Prop) [∀ s a, Decidable (E s a)] (f : σ → α → σ) :
    ∀ s l, Decidable (Runs E f s l)
  | _, [] => isTrue trivial
  | s, a :: l => @instDecidableAnd _ _ _ (decidableRuns E f (f s a) l)

/-- The property holds in every state that the run reaches. A run ends at an action that is not
enabled. -/
def Along (E : σ → α → Prop) (f : σ → α → σ) (P : σ → Prop) : σ → List α → Prop
  | s, [] => P s
  | s, a :: l => P s ∧ (E s a → Along E f P (f s a) l)

/-- Every step of the run meets the condition. -/
def StepsMeet (E : σ → α → Prop) (f : σ → α → σ) (G : σ → α → Prop) : σ → List α → Prop
  | _, [] => True
  | s, a :: l => E s a → G s a ∧ StepsMeet E f G (f s a) l

variable {E : σ → α → Prop} {f : σ → α → σ} {P I : σ → Prop} {G : σ → α → Prop}

theorem Along.head {s : σ} {l : List α} (h : Along E f P s l) : P s := by
  cases l with
  | nil => exact h
  | cons a l => exact h.1

theorem runs_append {s : σ} {l l' : List α} :
    Runs E f s (l ++ l') ↔ Runs E f s l ∧ Runs E f (l.foldl f s) l' := by
  induction l generalizing s with
  | nil => exact (and_iff_right trivial).symm
  | cons a l ih => exact (and_congr_right fun _ => ih).trans and_assoc.symm

theorem StepsMeet.last {s : σ} {l : List α} {a : α} (h : StepsMeet E f G s (l ++ [a]))
    (hruns : Runs E f s (l ++ [a])) : G (l.foldl f s) a := by
  induction l generalizing s with
  | nil => exact (h hruns.1).1
  | cons b l ih => exact ih (h hruns.1).2 hruns.2

theorem TransitionSystem.Reachable.runs {M : TransitionSystem σ}
    (hM : ∀ s a, E s a → M.step s (f s a)) {s : σ} {l : List α} (hs : M.Reachable s)
    (hruns : Runs E f s l) : M.Reachable (l.foldl f s) := by
  induction l generalizing s with
  | nil => exact hs
  | cons a l ih => exact ih (hs.step (hM s a hruns.1)) hruns.2

/-- **Runs.** The property holds along exactly those runs whose steps all meet the condition, when
an invariant that is enough for it is kept by the steps that do, and those that do not break it. -/
theorem along_iff (henough : ∀ s, I s → P s) (hkeep : ∀ s a, I s → E s a → G s a → I (f s a))
    (hbreak : ∀ s a, I s → E s a → ¬ G s a → ¬ P (f s a)) {s : σ} (h : I s) (l : List α) :
    Along E f P s l ↔ StepsMeet E f G s l := by
  induction l generalizing s with
  | nil => exact iff_of_true (henough s h) trivial
  | cons a l ih =>
    constructor
    · rintro ⟨-, hrest⟩ henabled
      have hmeets : G s a := Classical.byContradiction fun hnot =>
        hbreak s a h henabled hnot (hrest henabled).head
      exact ⟨hmeets, (ih (hkeep s a h henabled hmeets)).mp (hrest henabled)⟩
    · intro hmeets
      refine ⟨henough s h, fun henabled => ?_⟩
      obtain ⟨hguard, hrest⟩ := hmeets henabled
      exact (ih (hkeep s a h henabled hguard)).mpr hrest

end Along

end LeapPlatforms
