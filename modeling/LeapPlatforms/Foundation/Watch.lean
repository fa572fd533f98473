import LeapPlatforms.Foundation.LossyLink

/-!
# A machine by itself, watched

One machine of a link, with a link that may bring any flits at any time, and a history of the
flits that it has examined. What holds here holds whatever the other end and the link do, and
whether or not a check is worth anything.

## Main definitions

* `Machine.watched` — the machine, any flits, and a history
* `Machine.turn`

## Main results

* `watched_invariant` — what the machine's own steps have to keep
* `exists_watched` — either end of a lossy link is such a machine
* `watched_run` — a run, turn by turn
-/

namespace LeapPlatforms

namespace LossyLink

variable {σ ρ φ H : Type} {M : Machine σ ρ φ} {note : σ → Flit φ → σ → H → H} {start : H}

/-- A flit arrives, or a rule fires; when it examines a flit that is noted. -/
inductive Machine.WatchStep (M : Machine σ ρ φ) (note : σ → Flit φ → σ → H → H) :
    σ × H → σ × H → Prop
  | intake {s s' : σ} {h : H} {x : Flit φ} (hs : M.intake x s = some s') :
    M.WatchStep note (s, h) (s', h)
  | rule {s s' : σ} {h : H} {r : ρ} {out : Option φ} (hs : M.rule r s = some (s', out)) :
    M.WatchStep note (s, h) (s', (M.examines r s).elim h fun x => note s x s' h)

/-- The machine from its reset on, with any flits received and a history of those examined. -/
def Machine.watched (M : Machine σ ρ φ) (note : σ → Flit φ → σ → H → H) (start : H) :
    TransitionSystem (σ × H) where
  init s := s = (M.reset, start)
  step := M.WatchStep note

/-- **Invariants of a watched machine.** Flits that arrive and rules that examine none leave the
history as it is. -/
theorem watched_invariant {I : σ → H → Prop} (hinit : I M.reset start)
    (hintake : ∀ s h x s', I s h → M.intake x s = some s' → I s' h)
    (hrule : ∀ s h r s' out, I s h → M.examines r s = none → M.rule r s = some (s', out) → I s' h)
    (hexamine : ∀ s h r x s' out, I s h → M.examines r s = some x →
      M.rule r s = some (s', out) → I s' (note s x s' h))
    {s : σ × H} (h : (M.watched note start).Reachable s) : I s.1 s.2 := by
  refine h.invariant (P := fun s => I s.1 s.2) ?_ ?_
  · rintro s rfl
    exact hinit
  · rintro s t hI (hs | hs)
    · exact hintake _ _ _ _ hI hs
    · rename_i s s' h r out
      rcases hx : M.examines r s with _ | x
      · exact hrule s h r s' out hI hx hs
      · exact hexamine s h r x s' out hI hx hs

/-- **Either end of a lossy link**, whatever the other end and the links do, is a machine that may
receive any flits. -/
theorem exists_watched [DecidableEq φ] (note : σ → Flit φ → σ → H → H) (start : H)
    {d : Duplex σ φ} (h : (system M).Reachable d) :
    (∃ hist, (M.watched note start).Reachable (d.a.ep, hist)) ∧
      ∃ hist, (M.watched note start).Reachable (d.b.ep, hist) := by
  -- an endpoint makes a step of its own, or none
  have hmove : ∀ s p s' p' : Side σ φ, Move M s p s' p' →
      (∃ hist, (M.watched note start).Reachable (s.ep, hist)) →
        (∃ hist, (M.watched note start).Reachable (s'.ep, hist)) ∧ p'.ep = p.ep := by
    rintro s p s' p' hmove ⟨hist, hs⟩
    cases hmove with
    | rule r ep out hr _ => exact ⟨⟨_, hs.step (.rule hr)⟩, rfl⟩
    | intake x rest ep hp hin => exact ⟨⟨hist, hs.step (.intake hin)⟩, rfl⟩
    | drop pre post x hlink => exact ⟨⟨hist, hs⟩, rfl⟩
    | corrupt pre post x raw softErr hlink => exact ⟨⟨hist, hs⟩, rfl⟩
  refine h.invariant (P := fun d => (∃ hist, (M.watched note start).Reachable (d.a.ep, hist)) ∧
    ∃ hist, (M.watched note start).Reachable (d.b.ep, hist)) ?_ ?_
  · rintro _ rfl
    exact ⟨⟨start, .init rfl⟩, ⟨start, .init rfl⟩⟩
  · rintro d d' ⟨ha, hb⟩ (hstep | hstep)
    · obtain ⟨ha', hpeer⟩ := hmove _ _ _ _ hstep ha
      rw [hpeer]
      exact ⟨ha', hb⟩
    · obtain ⟨hb', hpeer⟩ := hmove _ _ _ _ hstep hb
      rw [hpeer]
      exact ⟨ha, hb'⟩

/-- A step, by the flit that arrives or the rule that fires. -/
def Machine.turn (M : Machine σ ρ φ) (note : σ → Flit φ → σ → H → H) (s : σ × H) :
    φ ⊕ ρ → Option (σ × H)
  | .inl raw => (M.intake ⟨raw, false, raw, 0⟩ s.1).map fun s' => (s', s.2)
  | .inr r => (M.rule r s.1).map fun t =>
    (t.1, (M.examines r s.1).elim s.2 fun x => note s.1 x t.1 s.2)

theorem turn_step {t : φ ⊕ ρ} {s s' : σ × H} (h : M.turn note s t = some s') :
    (M.watched note start).step s s' := by
  obtain ⟨s, hist⟩ := s
  rcases t with raw | r
  · obtain ⟨u, hu, rfl⟩ := Option.map_eq_some_iff.mp h
    exact .intake hu
  · obtain ⟨⟨u, out⟩, hu, rfl⟩ := Option.map_eq_some_iff.mp h
    exact .rule hu

theorem watched_run {ts : List (φ ⊕ ρ)} {s : σ × H}
    (h : ts.foldlM (M.turn note) (M.reset, start) = some s) : (M.watched note start).Reachable s :=
  TransitionSystem.Reachable.run (f := fun t s => M.turn note s t) (fun _ _ _ => turn_step)
    (.init rfl) h

end LossyLink

end LeapPlatforms
