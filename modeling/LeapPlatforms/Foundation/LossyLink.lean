import LeapPlatforms.Foundation.TransitionSystem
import Mathlib.Data.List.Basic

/-!
# Two endpoints over lossy links

Two copies of one machine, joined in each direction by a FIFO link that may lose or alter any flit
at any time. The machine is a set of rules over its state; a rule may send one flit, and one rule
takes a flit out of the receive queue and checks it.

The link remembers of every flit what it was when it was sent, and the number of *chained* flits
sent before it: the flits over which the sender runs its checksum from one to the next. These two,
and the receiver's `chain`, are ghosts. No machine reads them; they are there to say what a
checksum is for. `Genuine` is that statement: a flit passes a check only if it is unaltered, and,
if it is a payload flit, only if it is the flit that the sender put next on its chain after the
receiver's last header. Runs in which a check passes for a flit that is not genuine are not runs
of `LossyLink.system`.

## Main definitions

* `Kind`, `Flit`, `Machine`, `Side`, `Duplex`
* `Genuine`, `observe` — the promise of a checksum
* `Move` — what one endpoint and its outgoing link can do
* `LossyLink.system`
* `Turn`, `LossyLink.run` — a run, turn by turn

## Main results

* `LossyLink.directed` — a relation from one side to the other that both sides' moves keep holds in
  both directions in every reachable state
* `LossyLink.run_reachable`
-/

namespace LeapPlatforms

namespace LossyLink

/-- What a flit is, as far as a running checksum is concerned. -/
inductive Kind
  /-- Starts a chain. -/
  | header
  /-- Continues a chain. -/
  | payload
  /-- Outside any chain. -/
  | control
  deriving DecidableEq, Repr

/-- Whether a flit of this kind is part of the sender's chain. -/
def Kind.chained : Kind → Bool
  | .control => false
  | _ => true

/-- A flit on a link. -/
structure Flit (φ : Type) where
  /-- What the receiver sees. -/
  raw : φ
  /-- Whether the physical layer reports an error with it. -/
  softErr : Bool
  /-- Ghost: what was sent. -/
  orig : φ
  /-- Ghost: how many chained flits were sent before it. -/
  seqno : ℕ
  deriving DecidableEq, Repr

/-- A machine with states `σ`, rules `ρ` and flits `φ`. -/
structure Machine (σ ρ φ : Type) where
  /-- The state after reset. -/
  reset : σ
  /-- A rule: the new state and the flit it sends, if the rule can fire. -/
  rule : ρ → σ → Option (σ × Option φ)
  /-- A flit arrives from the link, if it can be taken. -/
  intake : Flit φ → σ → Option σ
  /-- The kind of a flit. -/
  kind : φ → Kind
  /-- The flit that a rule takes out of the receive queue. -/
  examines : ρ → σ → Option (Flit φ)
  /-- Whether the machine accepts that flit because it passed a check. -/
  passes : σ → Flit φ → Bool

/-- One endpoint with the link that leaves it. -/
structure Side (σ φ : Type) where
  /-- The endpoint. -/
  ep : σ
  /-- The link out of the endpoint, oldest flit first. -/
  link : List (Flit φ)
  /-- Ghost: how many chained flits the endpoint sent. -/
  sent : ℕ
  /-- Ghost: the number of the flit that continues the chain from the last header received, while
  that chain is unbroken. -/
  chain : Option ℕ

/-- Two endpoints, each with its outgoing link. -/
structure Duplex (σ φ : Type) where
  /-- One endpoint. -/
  a : Side σ φ
  /-- The other one. -/
  b : Side σ φ

variable {σ ρ φ : Type} [DecidableEq φ]

section Checksum

variable (kind : φ → Kind)

/-- The receiver's chain after it examined a flit: a header that is unaltered starts a chain, a
payload flit that is unaltered and next in the sender's chain continues it, anything else of these
kinds breaks it. -/
def observe (chain : Option ℕ) (x : Flit φ) : Option ℕ :=
  match kind x.raw with
  | .header => if x.raw = x.orig then some (x.seqno + 1) else none
  | .payload => if x.raw = x.orig ∧ chain = some x.seqno then some (x.seqno + 1) else none
  | .control => chain

/-- What a check promises of a flit that passes it. -/
def Genuine (chain : Option ℕ) (x : Flit φ) : Prop :=
  x.raw = x.orig ∧ (kind x.raw = .payload → chain = some x.seqno)

instance (chain : Option ℕ) (x : Flit φ) : Decidable (Genuine kind chain x) :=
  inferInstanceAs (Decidable (_ ∧ (_ → _)))

end Checksum

/-- A machine whose rules fire only where `ok` says so: its runs are the runs of the machine all of
whose rules fired where `ok` holds. -/
def Machine.restrict (M : Machine σ ρ φ) (ok : ρ → σ → Bool) : Machine σ ρ φ :=
  { M with rule := fun r s => if ok r s then M.rule r s else none }

variable (M : Machine σ ρ φ)

/-- A flit as it enters the link. -/
def Side.label (s : Side σ φ) (f : φ) : Flit φ :=
  { raw := f, softErr := false, orig := f, seqno := s.sent }

/-- An endpoint after one of its rules fired, with the flit that the rule sent and the flit that
it examined. -/
def Side.fire (s : Side σ φ) (ep : σ) (out : Option φ) (examined : Option (Flit φ)) : Side σ φ where
  ep := ep
  link := s.link ++ (out.map s.label).toList
  sent := s.sent + (out.filter fun f => (M.kind f).chained).toList.length
  chain := examined.elim s.chain (observe M.kind s.chain)

/-- What an endpoint and its outgoing link can do, and what becomes of the peer. -/
inductive Move : Side σ φ → Side σ φ → Side σ φ → Side σ φ → Prop
  /-- A rule of the endpoint fires. -/
  | rule (s p : Side σ φ) (r : ρ) (ep : σ) (out : Option φ) : M.rule r s.ep = some (ep, out) →
      (∀ x, M.examines r s.ep = some x → M.passes s.ep x = true → Genuine M.kind s.chain x) →
      Move s p (s.fire M ep out (M.examines r s.ep)) p
  /-- The endpoint takes the first flit from the peer's link. -/
  | intake (s p : Side σ φ) (x : Flit φ) (rest : List (Flit φ)) (ep : σ) : p.link = x :: rest →
      M.intake x s.ep = some ep → Move s p { s with ep := ep } { p with link := rest }
  /-- The link out of the endpoint loses a flit. -/
  | drop (s p : Side σ φ) (pre post : List (Flit φ)) (x : Flit φ) : s.link = pre ++ x :: post →
      Move s p { s with link := pre ++ post } p
  /-- The link out of the endpoint alters a flit. -/
  | corrupt (s p : Side σ φ) (pre post : List (Flit φ)) (x : Flit φ) (raw : φ) (softErr : Bool) :
      s.link = pre ++ x :: post →
      Move s p { s with link := pre ++ { x with raw := raw, softErr := softErr } :: post } p

/-- An endpoint after reset. -/
def Side.reset : Side σ φ := { ep := M.reset, link := [], sent := 0, chain := none }

/-- Two endpoints after reset. -/
def Duplex.reset : Duplex σ φ := ⟨Side.reset M, Side.reset M⟩

/-- Two endpoints over lossy links, every move of either interleaved in every order. -/
def system : TransitionSystem (Duplex σ φ) where
  init s := s = Duplex.reset M
  step s t := Move M s.a s.b t.a t.b ∨ Move M s.b s.a t.b t.a

variable {M}

theorem Side.fire_none (s : Side σ φ) (ep : σ) : s.fire M ep none none = { s with ep := ep } := by
  simp [Side.fire]

theorem Side.fire_examined (s : Side σ φ) (ep : σ) (x : Flit φ) :
    s.fire M ep none (some x) = { s with ep := ep, chain := observe M.kind s.chain x } := by
  simp [Side.fire]

theorem Side.fire_chained (s : Side σ φ) (ep : σ) {f : φ} (hf : (M.kind f).chained = true) :
    s.fire M ep (some f) none =
      { s with ep := ep, link := s.link ++ [s.label f], sent := s.sent + 1 } := by
  simp [Side.fire, hf, Option.filter]

theorem Side.fire_control (s : Side σ φ) (ep : σ) {f : φ} (hf : (M.kind f).chained = false) :
    s.fire M ep (some f) none = { s with ep := ep, link := s.link ++ [s.label f] } := by
  simp [Side.fire, hf, Option.filter]

/-- **Directed invariants.** A relation from a sending side to a receiving side that the moves of
either keep holds, in every reachable state, in both directions. -/
theorem directed {D : Side σ φ → Side σ φ → Prop} (hinit : D (Side.reset M) (Side.reset M))
    (hsend : ∀ s p s' p', D s p → Move M s p s' p' → D s' p')
    (hrecv : ∀ s p s' p', D s p → Move M p s p' s' → D s' p') {s : Duplex σ φ}
    (h : (system M).Reachable s) : D s.a s.b ∧ D s.b s.a := by
  refine h.invariant (P := fun s => D s.a s.b ∧ D s.b s.a) ?_ ?_
  · rintro _ rfl
    exact ⟨hinit, hinit⟩
  · rintro s t ⟨hab, hba⟩ (hmove | hmove)
    · exact ⟨hsend _ _ _ _ hab hmove, hrecv _ _ _ _ hba hmove⟩
    · exact ⟨hrecv _ _ _ _ hab hmove, hsend _ _ _ _ hba hmove⟩

/-! ### Runs, turn by turn -/

/-- One turn of an endpoint or its outgoing link. -/
inductive Turn (ρ φ : Type)
  /-- A rule fires. -/
  | rule (r : ρ)
  /-- The first flit of the peer's link is taken. -/
  | intake
  /-- The flit at a place of the outgoing link is lost. -/
  | drop (i : ℕ)
  /-- The flit at a place of the outgoing link is altered. -/
  | corrupt (i : ℕ) (raw : φ) (softErr : Bool)

variable (M)

/-- What a turn makes of an endpoint and its peer, if it can be taken. -/
def Side.turn (s p : Side σ φ) : Turn ρ φ → Option (Side σ φ × Side σ φ)
  | .rule r =>
    match M.rule r s.ep with
    | none => none
    | some (ep, out) =>
      if (M.examines r s.ep).all fun x => !M.passes s.ep x || decide (Genuine M.kind s.chain x) then
        some (s.fire M ep out (M.examines r s.ep), p)
      else none
  | .intake =>
    match p.link with
    | [] => none
    | x :: rest => (M.intake x s.ep).map fun ep => ({ s with ep := ep }, { p with link := rest })
  | .drop i =>
    match s.link.drop i with
    | [] => none
    | _ :: post => some ({ s with link := s.link.take i ++ post }, p)
  | .corrupt i raw softErr =>
    match s.link.drop i with
    | [] => none
    | x :: post =>
      some ({ s with
        link := s.link.take i ++ { x with raw := raw, softErr := softErr } :: post }, p)

/-- A run: each turn is taken by the first endpoint (`true`) or by the second. -/
def run : List (Bool × Turn ρ φ) → Duplex σ φ → Option (Duplex σ φ)
  | [], d => some d
  | (true, t) :: ts, d => (Side.turn M d.a d.b t).bind fun (a, b) => run ts ⟨a, b⟩
  | (false, t) :: ts, d => (Side.turn M d.b d.a t).bind fun (b, a) => run ts ⟨a, b⟩

variable {M}

theorem Side.turn_move {s p s' p' : Side σ φ} {t : Turn ρ φ}
    (h : Side.turn M s p t = some (s', p')) : Move M s p s' p' := by
  cases t with
  | rule r =>
    rw [Side.turn] at h
    split at h
    · cases h
    · next ep out hr =>
      split at h
      · next hgen =>
        obtain ⟨rfl, rfl⟩ := Prod.mk.inj (Option.some.inj h)
        refine .rule s p r ep out hr fun x hx hpass => ?_
        rw [hx] at hgen
        simpa [hpass] using hgen
      · cases h
  | intake =>
    rw [Side.turn] at h
    split at h
    · cases h
    · next x rest hp =>
      obtain ⟨ep, hin, heq⟩ := Option.map_eq_some_iff.mp h
      obtain ⟨rfl, rfl⟩ := Prod.mk.inj heq
      exact .intake s p x rest ep hp hin
  | drop i =>
    rw [Side.turn] at h
    split at h
    · cases h
    · next x post hs =>
      obtain ⟨rfl, rfl⟩ := Prod.mk.inj (Option.some.inj h)
      exact .drop s p _ post x (by rw [← hs, List.take_append_drop])
  | corrupt i raw softErr =>
    rw [Side.turn] at h
    split at h
    · cases h
    · next x post hs =>
      obtain ⟨rfl, rfl⟩ := Prod.mk.inj (Option.some.inj h)
      exact .corrupt s p _ post x raw softErr (by rw [← hs, List.take_append_drop])

/-- What a run reaches is reachable. -/
theorem run_reachable {ts : List (Bool × Turn ρ φ)} {d d' : Duplex σ φ}
    (hd : (system M).Reachable d) (h : run M ts d = some d') : (system M).Reachable d' := by
  induction ts generalizing d with
  | nil =>
    obtain rfl := Option.some.inj h
    exact hd
  | cons t ts ih =>
    obtain ⟨first, t⟩ := t
    cases first with
    | true =>
      obtain ⟨⟨a, b⟩, hturn, hrest⟩ := Option.bind_eq_some_iff.mp h
      exact ih (hd.step (Or.inl (Side.turn_move hturn))) hrest
    | false =>
      obtain ⟨⟨b, a⟩, hturn, hrest⟩ := Option.bind_eq_some_iff.mp h
      exact ih (hd.step (Or.inr (Side.turn_move hturn))) hrest

end LossyLink

end LeapPlatforms
