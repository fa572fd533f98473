import LeapPlatforms.Foundation.TransitionSystem
import Mathlib.Data.List.Basic

/-!
# Two endpoints over lossless links

Two copies of one machine, joined in each direction by a FIFO link that delivers every flit in
order, after any time. The machine is a set of rules over its state; a rule may send one flit, and a
flit at the head of the peer's link may be taken.

## Main definitions

* `Machine`, `Side`, `Duplex`, `Move`
* `Machine.restrict` — the runs whose rules fire only where a condition holds
* `FifoLink.system`
* `Turn`, `FifoLink.run` — a run, turn by turn

## Main results

* `FifoLink.directed` — a relation from one side to the other that both sides' moves keep holds in
  both directions in every reachable state
* `FifoLink.run_reachable`
-/

namespace LeapPlatforms

namespace FifoLink

/-- A machine with states `σ`, rules `ρ` and flits `φ`. -/
structure Machine (σ ρ φ : Type) where
  /-- A rule: the new state and the flit it sends, if the rule can fire. -/
  rule : ρ → σ → Option (σ × Option φ)
  /-- A flit arrives from the link, if it can be taken. -/
  intake : φ → σ → Option σ

/-- One endpoint with the link that leaves it. -/
structure Side (σ φ : Type) where
  /-- The endpoint. -/
  ep : σ
  /-- The link out of the endpoint, oldest flit first. -/
  link : List φ

/-- Two endpoints, each with its outgoing link. -/
structure Duplex (σ φ : Type) where
  /-- One endpoint. -/
  a : Side σ φ
  /-- The other one. -/
  b : Side σ φ

variable {σ ρ φ : Type}

/-- A machine whose rules fire only where `ok` says so: its runs are the runs of the machine all of
whose rules fired where `ok` holds. -/
def Machine.restrict (M : Machine σ ρ φ) (ok : ρ → σ → Bool) : Machine σ ρ φ :=
  { M with rule := fun r s => if ok r s then M.rule r s else none }

variable (M : Machine σ ρ φ)

/-- What an endpoint can do, and what becomes of the peer. -/
inductive Move : Side σ φ → Side σ φ → Side σ φ → Side σ φ → Prop
  /-- A rule of the endpoint fires. -/
  | rule (s p : Side σ φ) (r : ρ) (ep : σ) (out : Option φ) : M.rule r s.ep = some (ep, out) →
      Move s p { ep := ep, link := s.link ++ out.toList } p
  /-- The endpoint takes the first flit from the peer's link. -/
  | intake (s p : Side σ φ) (x : φ) (rest : List φ) (ep : σ) : p.link = x :: rest →
      M.intake x s.ep = some ep → Move s p { s with ep := ep } { p with link := rest }

/-- Two endpoints over lossless links, every move of either interleaved in every order. -/
def system (init : Duplex σ φ → Prop) : TransitionSystem (Duplex σ φ) where
  init := init
  step s t := Move M s.a s.b t.a t.b ∨ Move M s.b s.a t.b t.a

variable {M} {init : Duplex σ φ → Prop}

/-- **Directed invariants.** A relation from a sending side to a receiving side that the moves of
either keep holds, in every reachable state, in both directions. -/
theorem directed {D : Side σ φ → Side σ φ → Prop} (hinit : ∀ d, init d → D d.a d.b ∧ D d.b d.a)
    (hsend : ∀ s p s' p', D s p → D p s → Move M s p s' p' → D s' p')
    (hrecv : ∀ s p s' p', D s p → D p s → Move M p s p' s' → D s' p') {d : Duplex σ φ}
    (h : (system M init).Reachable d) : D d.a d.b ∧ D d.b d.a := by
  refine h.invariant (P := fun d => D d.a d.b ∧ D d.b d.a) hinit ?_
  rintro s t ⟨hab, hba⟩ (hmove | hmove)
  · exact ⟨hsend _ _ _ _ hab hba hmove, hrecv _ _ _ _ hba hab hmove⟩
  · exact ⟨hrecv _ _ _ _ hab hba hmove, hsend _ _ _ _ hba hab hmove⟩

/-! ### Runs, turn by turn -/

/-- One turn of an endpoint. -/
inductive Turn (ρ : Type)
  /-- A rule fires. -/
  | rule (r : ρ)
  /-- The first flit of the peer's link is taken. -/
  | intake

variable (M)

/-- What a turn makes of an endpoint and its peer, if it can be taken. -/
def Side.turn (s p : Side σ φ) : Turn ρ → Option (Side σ φ × Side σ φ)
  | .rule r => (M.rule r s.ep).map fun (ep, out) => ({ ep := ep, link := s.link ++ out.toList }, p)
  | .intake =>
    match p.link with
    | [] => none
    | x :: rest => (M.intake x s.ep).map fun ep => ({ s with ep := ep }, { p with link := rest })

/-- A run: each turn is taken by the first endpoint (`true`) or by the second. -/
def run : List (Bool × Turn ρ) → Duplex σ φ → Option (Duplex σ φ)
  | [], d => some d
  | (true, t) :: ts, d => (Side.turn M d.a d.b t).bind fun (a, b) => run ts ⟨a, b⟩
  | (false, t) :: ts, d => (Side.turn M d.b d.a t).bind fun (b, a) => run ts ⟨a, b⟩

variable {M}

theorem Side.turn_move {s p s' p' : Side σ φ} {t : Turn ρ}
    (h : Side.turn M s p t = some (s', p')) : Move M s p s' p' := by
  cases t with
  | rule r =>
    obtain ⟨⟨ep, out⟩, hr, heq⟩ := Option.map_eq_some_iff.mp h
    obtain ⟨rfl, rfl⟩ := Prod.mk.inj heq
    exact .rule s p r ep out hr
  | intake =>
    rw [Side.turn] at h
    split at h
    · cases h
    · next x rest hp =>
      obtain ⟨ep, hin, heq⟩ := Option.map_eq_some_iff.mp h
      obtain ⟨rfl, rfl⟩ := Prod.mk.inj heq
      exact .intake s p x rest ep hp hin

/-- What a run reaches is reachable. -/
theorem run_reachable {ts : List (Bool × Turn ρ)} {d d' : Duplex σ φ}
    (hd : (system M init).Reachable d) (h : run M ts d = some d') :
    (system M init).Reachable d' := by
  induction ts generalizing d with
  | nil =>
    obtain rfl := Option.some.inj h
    exact hd
  | cons t ts ih =>
    obtain ⟨first, t⟩ := t
    cases first with
    | true =>
      obtain ⟨⟨a, b⟩, hturn, hrest⟩ := Option.bind_eq_some_iff.mp h
      exact ih (hd.step (Or.inl (Side.turn_move hturn))) hrest
    | false =>
      obtain ⟨⟨b, a⟩, hturn, hrest⟩ := Option.bind_eq_some_iff.mp h
      exact ih (hd.step (Or.inr (Side.turn_move hturn))) hrest

end FifoLink

end LeapPlatforms
