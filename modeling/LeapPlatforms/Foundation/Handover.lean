import LeapPlatforms.Foundation.TransitionSystem
import Mathlib.Data.List.Basic

/-!
# Handing requests over with a one-clock acknowledgement

A requester shows one request at a time. A server latches what is shown, starts it a step later and
acknowledges it for one step; the requester then shows the next request, which the server may latch
while it still serves the first. Nothing but the timing keeps the requester from missing the
acknowledgement, or the server from serving a request twice.

## Main definitions

* `Server`, `Server.Step` — the serving party
* `Requester`, `Requester.Step` — the requesting party
* `Handover`, `Handover.Step`, `handovers` — both, with what was asked for and what was served

## Main results

* `Handover.Agrees`, `agrees_of_reachable`
* `Handover.Leaving.step` — a server that is not through with another request
* `asking_of_ack` — every acknowledgement meets a requester that waits for it
* `served_append`, `served_append_todo`, `of_served_eq`, `served_eq_of_resting` — every request is
  served once, in order
-/

namespace LeapPlatforms

namespace Handing

variable {ρ : Type*}

/-! ### The parties -/

/-- The server, as far as this requester is concerned. -/
inductive Server (ρ : Type*)
  /-- At rest, or busy for others. -/
  | other
  /-- A request is latched. -/
  | latched (r : ρ)
  /-- It is started; the first step acknowledges it. -/
  | started (r : ρ) (fresh : Bool)
  /-- It was served, and the server finishes. -/
  | finishing

/-- The acknowledgement. -/
def Server.ack : Server ρ → Bool
  | .started _ fresh => fresh
  | _ => false

/-- Whether no request of this requester is being served. -/
def Server.finished : Server ρ → Bool
  | .other => true
  | .latched _ => true
  | _ => false

/-- A step of the server, given what the requester shows; a request is served on the way. -/
inductive Server.Step (offer : Option ρ) : Server ρ → Server ρ → List ρ → Prop
  | rest : Step offer .other .other []
  | latch {r : ρ} : offer = some r → Step offer .other (.latched r) []
  | start {r : ρ} : Step offer (.latched r) (.started r true) []
  | hold {r : ρ} {fresh : Bool} : Step offer (.started r fresh) (.started r false) []
  | serve {r : ρ} {fresh : Bool} : Step offer (.started r fresh) .finishing [r]
  | finishing : Step offer .finishing .finishing []
  | finish : Step offer .finishing .other []
  | finishLatch {r : ρ} : offer = some r → Step offer .finishing (.latched r) []

variable {shown : Option ρ} {v w : Server ρ} {out : List ρ}

/-- A request is served on the way to the end of its service. -/
theorem Server.Step.out_eq_nil (h : Server.Step shown v w out) (hw : w ≠ .finishing) : out = [] := by
  cases h with
  | serve => exact absurd rfl hw
  | _ => rfl

/-- It is served when the service is left. -/
theorem Server.Step.out_of_started {r : ρ} {fresh : Bool}
    (h : Server.Step shown (.started r fresh) .finishing out) : out = [r] := by
  cases h
  rfl

theorem Server.Step.out_of_finishing (h : Server.Step shown .finishing w out) : out = [] := by
  cases h <;> rfl

/-- Where the requester is. -/
inductive Phase
  /-- It has nothing to ask for. -/
  | idle
  /-- It waits for the acknowledgement. -/
  | asking
  /-- It waits for the end of the service. -/
  | waiting
  /-- All is served, and it waits for something else. -/
  | draining
  deriving DecidableEq

/-- The requester: what it still asks for, the request that it shows first. -/
structure Requester (ρ : Type*) where
  phase : Phase
  todo : List ρ

/-- What the requester shows. -/
def Requester.offer (q : Requester ρ) : Option ρ := q.todo.head?

/-- A step of the requester, given the signals of the server; new requests come in. -/
inductive Requester.Step (ack finished : Bool) : Requester ρ → Requester ρ → List ρ → Prop
  | rest : Step ack finished ⟨.idle, []⟩ ⟨.idle, []⟩ []
  | new {l : List ρ} : l ≠ [] → Step ack finished ⟨.idle, []⟩ ⟨.asking, l⟩ l
  | ask {l : List ρ} : ack = false → Step ack finished ⟨.asking, l⟩ ⟨.asking, l⟩ []
  | acked {r : ρ} {l : List ρ} : ack = true → Step ack finished ⟨.asking, r :: l⟩ ⟨.waiting, l⟩ []
  | wait {l : List ρ} : finished = false → Step ack finished ⟨.waiting, l⟩ ⟨.waiting, l⟩ []
  | again {l : List ρ} : finished = true → l ≠ [] →
      Step ack finished ⟨.waiting, l⟩ ⟨.asking, l⟩ []
  | drain : finished = true → Step ack finished ⟨.waiting, []⟩ ⟨.draining, []⟩ []
  | stop : finished = true → Step ack finished ⟨.waiting, []⟩ ⟨.idle, []⟩ []
  | draining : Step ack finished ⟨.draining, []⟩ ⟨.draining, []⟩ []
  | drained : Step ack finished ⟨.draining, []⟩ ⟨.idle, []⟩ []

/-- What is asked for grows by what comes in, and shrinks by what is acknowledged. -/
theorem Requester.Step.length_todo {ack finished : Bool} {q q' : Requester ρ} {new : List ρ}
    (h : Requester.Step ack finished q q' new) :
    q'.todo.length ≤ q.todo.length + new.length ∧
      (ack = true → q.phase = .asking → q'.todo.length + 1 = q.todo.length) := by
  cases h with
  | ask hack => exact ⟨Nat.le_refl _, fun hack' => absurd (hack.symm.trans hack') (by decide)⟩
  | acked _ => exact ⟨Nat.le_succ _, fun _ _ => rfl⟩
  | new _ => exact ⟨Nat.le_add_left _ _, fun _ hphase => by cases hphase⟩
  | _ => exact ⟨Nat.le_add_right _ _, fun _ hphase => by cases hphase⟩

/-! ### Both together -/

/-- The two parties, what was ever asked for and what was served. -/
structure Handover (ρ : Type*) where
  server : Server ρ
  requester : Requester ρ
  asked : List ρ
  served : List ρ

/-- Both parties take a step, from the signals as they are. -/
inductive Handover.Step : Handover ρ → Handover ρ → Prop
  | mk {v w : Server ρ} {q q' : Requester ρ} {asked served new out : List ρ} :
      Server.Step q.offer v w out → Requester.Step v.ack v.finished q q' new →
      Step ⟨v, q, asked, served⟩ ⟨w, q', asked ++ new, served ++ out⟩

/-- The handover, from two parties at rest on. -/
def handovers : TransitionSystem (Handover ρ) where
  init s := s = ⟨.other, ⟨.idle, []⟩, [], []⟩
  step := Handover.Step

/-- The parties agree about the request that is handed over. -/
inductive Handover.Agrees : Handover ρ → Prop
  | other {p : Phase} {l asked served : List ρ} : (p = .asking → l ≠ []) →
      served ++ l = asked → Agrees ⟨.other, ⟨p, l⟩, asked, served⟩
  | latched {p : Phase} {r : ρ} {l asked served : List ρ} : p = .asking ∨ p = .waiting →
      served ++ r :: l = asked → Agrees ⟨.latched r, ⟨p, r :: l⟩, asked, served⟩
  | fresh {r : ρ} {l asked served : List ρ} :
      served ++ r :: l = asked → Agrees ⟨.started r true, ⟨.asking, r :: l⟩, asked, served⟩
  | started {r : ρ} {l asked served : List ρ} :
      served ++ r :: l = asked → Agrees ⟨.started r false, ⟨.waiting, l⟩, asked, served⟩
  | finishing {l asked served : List ρ} :
      served ++ l = asked → Agrees ⟨.finishing, ⟨.waiting, l⟩, asked, served⟩

/-- The server still finishes a request of which the requester knows nothing. -/
inductive Handover.Leaving : Handover ρ → Prop
  | idle {asked : List ρ} : Leaving ⟨.finishing, ⟨.idle, []⟩, asked, asked⟩
  | asking {l asked served : List ρ} : l ≠ [] →
      served ++ l = asked → Leaving ⟨.finishing, ⟨.asking, l⟩, asked, served⟩

namespace Handover

variable {s t : Handover ρ}

theorem Agrees.step (h : s.Agrees) (hst : Step s t) : t.Agrees := by
  obtain ⟨hserver, hrequester⟩ := hst
  cases h with
  | other hl hall =>
    cases hserver with
    | rest =>
      cases hrequester with
      | new hne => exact .other (fun _ => hne) (by simpa using hall)
      | ask _ => exact .other hl (by simpa using hall)
      | again _ hne => exact .other (fun _ => hne) (by simpa using hall)
      | acked hack => cases hack
      | wait hbusy => cases hbusy
      | _ => exact .other (by rintro ⟨⟩) (by simpa using hall)
    | latch hr =>
      cases hrequester with
      | ask _ =>
        obtain ⟨l', rfl⟩ := List.head?_eq_some_iff.mp hr
        exact .latched (.inl rfl) (by simpa using hall)
      | again _ _ =>
        obtain ⟨l', rfl⟩ := List.head?_eq_some_iff.mp hr
        exact .latched (.inl rfl) (by simpa using hall)
      | acked hack => cases hack
      | wait hbusy => cases hbusy
      | _ => cases hr
  | latched hp hall =>
    -- the service starts; a requester that still waits for the one before sees its end
    cases hserver with
    | start =>
      cases hrequester with
      | ask _ => exact .fresh (by simpa using hall)
      | again _ _ => exact .fresh (by simpa using hall)
      | acked hack => cases hack
      | wait hbusy => cases hbusy
  | fresh hall =>
    -- the acknowledgement is there: the requester goes on
    cases hserver with
    | hold =>
      cases hrequester with
      | ask hack => cases hack
      | acked _ => exact .started (by simpa using hall)
    | serve =>
      cases hrequester with
      | ask hack => cases hack
      | acked _ => exact .finishing (by simpa using hall)
  | started hall =>
    cases hserver with
    | hold =>
      cases hrequester with
      | wait _ => exact .started (by simpa using hall)
      | again hfinished _ => cases hfinished
      | drain hfinished => cases hfinished
      | stop hfinished => cases hfinished
    | serve =>
      cases hrequester with
      | wait _ => exact .finishing (by simpa using hall)
      | again hfinished _ => cases hfinished
      | drain hfinished => cases hfinished
      | stop hfinished => cases hfinished
  | finishing hall =>
    cases hrequester with
    | again hfinished _ => cases hfinished
    | drain hfinished => cases hfinished
    | stop hfinished => cases hfinished
    | wait _ =>
      cases hserver with
      | finishing => exact .finishing (by simpa using hall)
      | finish => exact .other (by rintro ⟨⟩) (by simpa using hall)
      | finishLatch hr =>
        obtain ⟨l', rfl⟩ := List.head?_eq_some_iff.mp hr
        exact .latched (.inr rfl) (by simpa using hall)

/-- When the server has finished, the parties agree. -/
theorem Leaving.step (h : s.Leaving) (hst : Step s t) : t.Leaving ∨ t.Agrees := by
  obtain ⟨hserver, hrequester⟩ := hst
  cases h with
  | idle =>
    cases hserver with
    | finishing =>
      left
      cases hrequester with
      | rest => simpa using Leaving.idle
      | new hne => exact .asking hne (by simp)
    | finish =>
      right
      cases hrequester with
      | rest => exact .other (by rintro ⟨⟩) (by simp)
      | new hne => exact .other (fun _ => hne) (by simp)
    | finishLatch hr => cases hr
  | asking hne hall =>
    cases hrequester with
    | acked hack => cases hack
    | ask _ =>
      cases hserver with
      | finishing => exact Or.inl (.asking hne (by simpa using hall))
      | finish => exact Or.inr (.other (fun _ => hne) (by simpa using hall))
      | finishLatch hr =>
        obtain ⟨l', rfl⟩ := List.head?_eq_some_iff.mp hr
        exact Or.inr (.latched (.inl rfl) (by simpa using hall))

/-- A requester that asks for nothing was served everything. -/
theorem Agrees.of_idle (h : s.Agrees) (hphase : s.requester.phase = .idle)
    (htodo : s.requester.todo = []) : s.server = .other ∧ s.served = s.asked := by
  cases h with
  | other _ hall =>
    obtain rfl := htodo
    exact ⟨rfl, by simpa using hall⟩
  | latched => cases htodo
  | fresh => cases htodo
  | started => cases hphase
  | finishing => cases hphase

/-- What the server has latched is asked for. -/
theorem Agrees.of_latched {r : ρ} (h : s.Agrees) (hserver : s.server = .latched r) :
    s.requester.phase ≠ .idle ∧ s.requester.todo ≠ [] := by
  cases h with
  | latched hp _ =>
    refine ⟨?_, List.cons_ne_nil _ _⟩
    rcases hp with rfl | rfl <;> rintro ⟨⟩
  | _ => cases hserver

/-- What it has started is not served. -/
theorem Agrees.of_started {r : ρ} {fresh : Bool} (h : s.Agrees)
    (hserver : s.server = .started r fresh) :
    s.requester.phase ≠ .idle ∧ s.served.length < s.asked.length := by
  cases h with
  | fresh hall | started hall =>
    refine ⟨(by rintro ⟨⟩), ?_⟩
    rw [← hall]
    simp
  | _ => cases hserver

theorem Agrees.of_finishing (h : s.Agrees) (hserver : s.server = .finishing) :
    s.requester.phase = .waiting := by
  cases h with
  | finishing _ => rfl
  | _ => cases hserver

/-- Requests are served in order. -/
theorem Agrees.served_prefix (h : s.Agrees) : s.served <+: s.asked := by
  cases h with
  | other _ hall | latched _ hall | fresh hall | started hall | finishing hall => exact ⟨_, hall⟩

theorem agrees_of_reachable (h : handovers.Reachable s) : s.Agrees := by
  refine h.invariant ?_ fun _ _ hs hst => hs.step hst
  rintro s rfl
  exact .other (by rintro ⟨⟩) rfl

/-- **No acknowledgement is missed.** -/
theorem asking_of_ack (h : s.Agrees) (hack : s.server.ack = true) :
    s.requester.phase = .asking := by
  cases h with
  | fresh => rfl
  | _ => cases hack

/-- **Requests are served once and in order.** -/
theorem served_append (h : s.Agrees) : ∃ rest, s.served ++ rest = s.asked := by
  cases h with
  | other _ hall => exact ⟨_, hall⟩
  | latched _ hall => exact ⟨_, hall⟩
  | fresh hall => exact ⟨_, hall⟩
  | started hall => exact ⟨_, hall⟩
  | finishing hall => exact ⟨_, hall⟩

/-- What was served and what is still asked for make up what was asked, but for a request that is
being started. -/
theorem served_append_todo (h : s.Agrees) :
    ∃ mid, s.served ++ mid ++ s.requester.todo = s.asked := by
  cases h with
  | other _ hall => exact ⟨[], by simpa using hall⟩
  | latched _ hall => exact ⟨[], by simpa using hall⟩
  | fresh hall => exact ⟨[], by simpa using hall⟩
  | @started r _ _ _ hall => exact ⟨[r], by simpa using hall⟩
  | finishing hall => exact ⟨[], by simpa using hall⟩

/-- When everything was served, nothing is asked for, and the server is free or finishes. -/
theorem of_served_eq (h : s.Agrees) (hall : s.served = s.asked) :
    s.requester.todo = [] ∧ s.requester.phase ≠ .asking ∧
      (s.server = .other ∨ s.server = .finishing) := by
  cases h with
  | other hp hall' =>
    have htodo := List.append_right_eq_self.mp (hall'.trans hall.symm)
    exact ⟨htodo, fun h => hp h htodo, .inl rfl⟩
  | latched _ hall' => cases List.append_right_eq_self.mp (hall'.trans hall.symm)
  | fresh hall' => cases List.append_right_eq_self.mp (hall'.trans hall.symm)
  | started hall' => cases List.append_right_eq_self.mp (hall'.trans hall.symm)
  | finishing hall' =>
    exact ⟨List.append_right_eq_self.mp (hall'.trans hall.symm), (by rintro ⟨⟩), .inr rfl⟩

/-- A requester that is through has been served everything. -/
theorem served_eq_of_resting (h : s.Agrees)
    (hphase : s.requester.phase = .idle ∨ s.requester.phase = .draining)
    (htodo : s.requester.todo = []) : s.served = s.asked := by
  cases h with
  | other _ hall =>
    obtain rfl := htodo
    simpa using hall
  | latched => cases htodo
  | fresh => cases htodo
  | started => rcases hphase with h | h <;> cases h
  | finishing => rcases hphase with h | h <;> cases h

end Handover

end Handing

end LeapPlatforms
