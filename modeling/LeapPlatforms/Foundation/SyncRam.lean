import Mathlib.Logic.Function.Basic
import Mathlib.Tactic.Common

/-!
# Synchronous memories

A memory that answers a read in the cycle after it was asked for, and in that cycle only. Components
are clocked: in a cycle they are asked to read, to answer and to write, and some of what they do may
be left open. A flat memory says what they should answer to a user that takes every answer.

## Main definitions

* `SyncRam.Input`, `Component`, `Component.run` — components and their runs
* `Flat`, `Flat.cycle`, `Flat.Obeys`, `Flat.Disciplined` — the flat memory and its user
* `Implements`, `Ram` — a component does what the flat memory does

## Main results

* `Implements.run`
-/

namespace LeapPlatforms

namespace SyncRam

/-- What is asked of a memory in one cycle. -/
structure Input (α : Type) where
  /-- An address to read. -/
  readReq : Option ℕ
  /-- The answer is taken. -/
  readRsp : Bool
  /-- An address to write, and what to. -/
  write : Option (ℕ × α)

/-- A clocked component. -/
structure Component (α : Type) where
  /-- Its states. -/
  σ : Type
  /-- What is left open in a cycle. -/
  χ : Type
  /-- A cycle, with what is answered; a component that cannot be asked this does nothing. -/
  cycle : σ → Input α → χ → Option (σ × Option α)

variable {α : Type}

/-- A run, with the answer of each cycle. -/
def Component.run (C : Component α) :
    C.σ → List (Input α × C.χ) → Option (C.σ × List (Option α))
  | s, [] => some (s, [])
  | s, x :: l => (C.cycle s x.1 x.2).bind fun t => (C.run t.1 l).map fun u => (u.1, t.2 :: u.2)

/-! ### Flat memories -/

/-- A memory, and the address that was read in the last cycle, with what was there. -/
structure Flat (α : Type) where
  /-- The memory. -/
  mem : ℕ → α
  /-- What was read. -/
  sampled : Option (ℕ × α)

/-- A memory after a write, or none. -/
def written (mem : ℕ → α) : Option (ℕ × α) → ℕ → α
  | none => mem
  | some (a, d) => Function.update mem a d

namespace Flat

/-- A memory of which nothing was read yet. -/
def start (mem : ℕ → α) : Flat α := { mem := mem, sampled := none }

/-- A cycle: a read sees what was there before a write of the same cycle. -/
def cycle (f : Flat α) (i : Input α) : Flat α where
  mem := written f.mem i.write
  sampled := i.readReq.map fun a => (a, f.mem a)

/-- The answers of a run, and the memory after it. -/
def run : Flat α → List (Input α) → Flat α × List (Option α)
  | f, [] => (f, [])
  | f, i :: l => ((run (f.cycle i) l).1, f.sampled.map Prod.snd :: (run (f.cycle i) l).2)

/-- A user that takes every answer, and that asks for some addresses only. -/
structure Obeys (inRange : ℕ → Prop) (f : Flat α) (i : Input α) : Prop where
  /-- An answer is taken in the cycle after the request. -/
  readRsp : i.readRsp = f.sampled.isSome
  /-- Reads are in range. -/
  readReq : ∀ a, i.readReq = some a → inRange a
  /-- So are writes. -/
  write : ∀ a d, i.write = some (a, d) → inRange a

/-- A user that does so in every cycle. -/
def Disciplined (inRange : ℕ → Prop) : Flat α → List (Input α) → Prop
  | _, [] => True
  | f, i :: l => f.Obeys inRange i ∧ Disciplined inRange (f.cycle i) l

end Flat

/-- Whatever is left open, the component answers as the flat memory does. -/
structure Implements (C : Component α) (inRange : ℕ → Prop) (R : C.σ → Flat α → Prop) : Prop where
  /-- In one cycle. -/
  cycle : ∀ s f i c, R s f → f.Obeys inRange i →
    ∃ t, C.cycle s i c = some (t, f.sampled.map Prod.snd) ∧ R t (f.cycle i)

/-- **In a run** of a user that takes every answer. -/
theorem Implements.run {C : Component α} {inRange : ℕ → Prop} {R : C.σ → Flat α → Prop}
    (h : Implements C inRange R) {s : C.σ} {f : Flat α} (hs : R s f)
    {l : List (Input α × C.χ)} (hl : f.Disciplined inRange (l.map Prod.fst)) :
    ∃ t, C.run s l = some (t, (f.run (l.map Prod.fst)).2) ∧ R t (f.run (l.map Prod.fst)).1 := by
  induction l generalizing s f with
  | nil => exact ⟨s, rfl, hs⟩
  | cons x l ih =>
    obtain ⟨t, hcycle, ht⟩ := h.cycle s f x.1 x.2 hs hl.1
    obtain ⟨u, hrun, hu⟩ := ih ht hl.2
    refine ⟨u, ?_, hu⟩
    rw [Component.run, hcycle, Option.bind_some, hrun]
    rfl

/-- A component with a proof that it is a memory. -/
structure Ram (α : Type) extends Component α where
  /-- Its addresses. -/
  inRange : ℕ → Prop
  /-- When it agrees with a flat memory. -/
  Rel : σ → Flat α → Prop
  /-- It does what the flat memory does. -/
  implements : Implements toComponent inRange Rel

end SyncRam

end LeapPlatforms
