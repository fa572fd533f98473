import LeapPlatforms.Foundation.TransitionSystem
import Mathlib.Tactic.Common

/-!
# One request at a time

A clocked module with a method that takes a request and one that gives the response, in any order in
which its guards let them be called. A module that holds one request at a time, and responds to it
some time later, responds to the requests in their order.

## Main definitions

* `Server`, `Server.idle` — a module, and a clock in which no method is called
* `Serves` — it holds one request at a time
* `Serving`, `serving`, `Serving.Behaves` — its runs, and what is to hold in them

## Main results

* `Serves.behaves`
-/

namespace LeapPlatforms

namespace OneAtATime

variable {β γ : Type}

/-- A clocked module; where the guards do not let a clock be, it is none. -/
structure Server (β γ : Type) where
  /-- Its states. -/
  σ : Type
  /-- After a reset. -/
  start : σ → Prop
  /-- A clock, with the request that is made, if the response is taken, and what that is. -/
  cycle : σ → Option β → Bool → Option (σ × Option γ)

/-- Some clocks in which no method is called. -/
def Server.idle (S : Server β γ) : ℕ → S.σ → Option S.σ
  | 0, s => some s
  | k + 1, s => (S.cycle s none false).bind fun t => S.idle k t.1

theorem Server.idle_succ {S : Server β γ} {s t : S.σ} {r : Option γ}
    (h : S.cycle s none false = some (t, r)) (k : ℕ) : S.idle (k + 1) s = S.idle k t := by
  show (S.cycle s none false).bind _ = _
  rw [h]
  rfl

/-- It holds one request at a time, and responds with a function of it. -/
structure Serves (S : Server β γ) (f : β → γ) (latency : ℕ) (R : S.σ → Option β → Prop) :
    Prop where
  /-- A reset leaves no request. -/
  start : ∀ s, S.start s → R s none
  /-- One clock. -/
  cycle : ∀ s pending req resp t r, R s pending → S.cycle s req resp = some (t, r) →
    (req.isSome = true → pending = none) ∧ (resp = true → pending.isSome = true) ∧
      r = (if resp then pending.map f else none) ∧ R t (if resp then none else pending.or req)
  /-- Without a request it takes one. -/
  free : ∀ s x, R s none → (S.cycle s (some x) false).isSome = true
  /-- A request is responded to, if it is left alone that long. -/
  ready : ∀ s x, R s (some x) →
    ∃ k ≤ latency, ∃ t, S.idle k s = some t ∧ (S.cycle t none true).isSome = true

/-! ### Runs -/

/-- A module, what it was asked and what it answered. -/
structure Serving (S : Server β γ) where
  /-- The module. -/
  state : S.σ
  /-- The requests. -/
  asked : List β
  /-- The responses. -/
  answered : List γ

/-- The runs of a module. -/
def serving (S : Server β γ) : TransitionSystem (Serving S) where
  init s := S.start s.state ∧ s.asked = [] ∧ s.answered = []
  step s t := ∃ req resp r, S.cycle s.state req resp = some (t.state, r) ∧
    t.asked = s.asked ++ req.toList ∧ t.answered = s.answered ++ r.toList

theorem serving_step {S : Server β γ} {s : Serving S} (req : Option β) (resp : Bool) {t : S.σ}
    {r : Option γ} (h : S.cycle s.state req resp = some (t, r)) : (serving S).step s
      { state := t, asked := s.asked ++ req.toList, answered := s.answered ++ r.toList } :=
  ⟨req, resp, r, h, rfl, rfl⟩

/-- Each response is right for its request, and comes. -/
structure Serving.Behaves {S : Server β γ} (Right : β → γ → Prop) (latency : ℕ) (s : Serving S) :
    Prop where
  /-- The responses are those of the requests, in their order. -/
  right : ∀ (k : ℕ) x r, s.asked[k]? = some x → s.answered[k]? = some r → Right x r
  /-- There are not more of them. -/
  answered_le : s.answered.length ≤ s.asked.length
  /-- One request is made at a time. -/
  asked_le : s.asked.length ≤ s.answered.length + 1
  /-- It is taken if the one before has its response. -/
  free : s.asked.length = s.answered.length → ∀ x, (S.cycle s.state (some x) false).isSome = true
  /-- The response can be had. -/
  ready : s.asked.length = s.answered.length + 1 →
    ∃ k ≤ latency, ∃ t, S.idle k s.state = some t ∧ (S.cycle t none true).isSome = true

namespace Serves

variable {S : Server β γ} {f : β → γ} {latency : ℕ} {R : S.σ → Option β → Prop}

/-- What was asked was answered, or is the request that is held. -/
theorem pending_of_reachable (h : Serves S f latency R) {s : Serving S}
    (hs : (serving S).Reachable s) :
    ∃ pending, R s.state pending ∧ s.asked.map f = s.answered ++ (pending.map f).toList := by
  refine hs.invariant (P := fun s => ∃ pending, R s.state pending ∧
    s.asked.map f = s.answered ++ (pending.map f).toList) ?_ ?_
  · rintro s ⟨hstart, hasked, hanswered⟩
    exact ⟨none, h.start _ hstart, by rw [hasked, hanswered]; rfl⟩
  · rintro s t ⟨pending, hR, heq⟩ ⟨req, resp, r, hcycle, hasked, hanswered⟩
    obtain ⟨hreq, hresp, hr, hR'⟩ := h.cycle _ _ _ _ _ _ hR hcycle
    refine ⟨_, hR', ?_⟩
    rw [hasked, hanswered, List.map_append, heq, hr]
    cases hpending : pending with
    | none =>
      have hquiet : resp = false := by
        cases resp with
        | false => rfl
        | true =>
          have hsome := hresp rfl
          rw [hpending] at hsome
          cases hsome
      rw [hquiet]
      cases req <;> simp
    | some x =>
      have hnone : req = none := by
        cases hreqCase : req with
        | none => rfl
        | some y =>
          have hnone := hreq (by rw [hreqCase]; rfl)
          rw [hpending] at hnone
          cases hnone
      rw [hnone]
      cases resp <;> simp

/-- **A module that holds one request at a time** answers each of them, in their order. -/
theorem behaves (h : Serves S f latency R) {Right : β → γ → Prop} (hf : ∀ x, Right x (f x))
    {s : Serving S} (hs : (serving S).Reachable s) : s.Behaves Right latency := by
  obtain ⟨pending, hR, heq⟩ := h.pending_of_reachable hs
  have hlength := congrArg List.length heq
  rw [List.length_map, List.length_append] at hlength
  refine ⟨fun k x r hx hr => ?_, by omega, ?_, fun hnone => ?_, fun hsome => ?_⟩
  · have hk : (s.asked.map f)[k]? = some (f x) := by rw [List.getElem?_map, hx]; rfl
    rw [heq, List.getElem?_append_left (List.getElem?_eq_some_iff.mp hr).1, hr] at hk
    obtain rfl := Option.some.inj hk
    exact hf x
  · have hle : (pending.map f).toList.length ≤ 1 := by cases pending <;> simp
    omega
  · cases hpending : pending with
    | none =>
      rw [hpending] at hR
      exact fun x => h.free _ x hR
    | some x =>
      rw [hpending] at hlength
      have hone : ((some x).map f).toList.length = 1 := rfl
      omega
  · cases hpending : pending with
    | none =>
      rw [hpending] at hlength
      have hzero : ((none : Option β).map f).toList.length = 0 := rfl
      omega
    | some x =>
      rw [hpending] at hR
      exact h.ready _ x hR

end Serves

end OneAtATime

end LeapPlatforms
