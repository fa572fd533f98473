import LeapPlatforms.Foundation.TransitionSystem
import Mathlib.Data.Nat.Notation
import Mathlib.Logic.Function.Basic

/-!
# Processes that make calls on a shared world

A program is written once, as a tree of the calls it makes, and is given two meanings: it is run
alone, against a handler that answers its calls; or many programs run as the processes of one
system, one call of one process at a time, in any order.

Facts about the processes of a system are proved in two halves that do not meet. A *discipline*
is a small automaton: it says which calls a process may make in each phase and which phase each
reply leaves it in. That a program keeps to a discipline is a fact about its text alone, proved
by `Discipline.Keeps` and its rules. What the processes of a system do to each other is then a
fact about phases and the world, and `Pool.invariant` needs one step of one phase for it.

## Main definitions

* `Prog` — programs; `Prog.bind`, `Prog.perform`, `Prog.closing`, `Prog.Makes`
* `Prog.run`, `Prog.advance` — a program alone with a handler; `Prog.ended`
* `Semantics`, `Pool`, `pool` — the processes of a system; `poolIn` — in an environment
* `Semantics.recording` — a system with a history variable
* `Discipline`, `Discipline.Keeps`, `Discipline.prod`

## Main results

* `Prog.run_bind`, `Prog.run_of_makes`
* `Discipline.keeps_bind`, `Discipline.keeps_ite`, `Discipline.keeps_closing`,
  `Discipline.keeps_of_makes`, `Discipline.keeps_prod`
* `Pool.invariant_in`, `Pool.invariant`
* `Pool.recorded` — a history variable hinders no run
* `Pool.run_reachable`, `Pool.advance_reachable` — a program run alone is a run of the system
-/

namespace LeapPlatforms

variable {Call : Type} {Reply : Call → Type} {ε α β : Type} {W H Phase : Type}

/-- A program: it has returned, it has stopped for a reason of its own, or it makes a call and
goes on with the reply. -/
inductive Prog (Reply : Call → Type) (ε α : Type) where
  | ret (a : α)
  | stop (e : ε)
  | call (c : Call) (k : Reply c → Prog Reply ε α)

namespace Prog

/-- `x`, and then `f` on what `x` returns. A program that stops does not go on. -/
def bind (x : Prog Reply ε α) (f : α → Prog Reply ε β) : Prog Reply ε β :=
  match x with
  | ret a => f a
  | stop e => stop e
  | call c k => call c fun r => (k r).bind f

instance : Monad (Prog Reply ε) where
  pure := ret
  bind := bind

/-- One call. -/
def perform (c : Call) : Prog Reply ε (Reply c) :=
  call c ret

/-- `x`, with the call `c` made at its end, however it ends. -/
def closing (c : Call) : Prog Reply ε α → Prog Reply ε α
  | ret a => call c fun _ => ret a
  | stop e => call c fun _ => stop e
  | call d k => call d fun r => (k r).closing c

@[simp] theorem pure_eq (a : α) : (pure a : Prog Reply ε α) = ret a := rfl

@[simp] theorem bind_ret (a : α) (f : α → Prog Reply ε β) : (ret a >>= f) = f a := rfl

@[simp] theorem bind_stop (e : ε) (f : α → Prog Reply ε β) : (stop e >>= f) = stop e := rfl

@[simp] theorem bind_call (c : Call) (k : Reply c → Prog Reply ε α) (f : α → Prog Reply ε β) :
    (call c k >>= f) = call c fun r => k r >>= f := rfl

@[simp] theorem bind_perform (c : Call) (f : Reply c → Prog Reply ε β) :
    (perform c >>= f) = call c f := rfl

/-- All calls of the program satisfy `P`, whatever the replies. -/
def Makes (P : Call → Prop) : Prog Reply ε α → Prop
  | ret _ => True
  | stop _ => True
  | call c k => P c ∧ ∀ r, (k r).Makes P

@[simp] theorem makes_ret (P : Call → Prop) (a : α) :
    (ret a : Prog Reply ε α).Makes P := trivial

@[simp] theorem makes_stop (P : Call → Prop) (e : ε) :
    (stop e : Prog Reply ε α).Makes P := trivial

@[simp] theorem makes_call (P : Call → Prop) (c : Call) (k : Reply c → Prog Reply ε α) :
    (call c k).Makes P ↔ P c ∧ ∀ r, (k r).Makes P := Iff.rfl

theorem makes_ite {P : Call → Prop} {b : Prop} [Decidable b] {x y : Prog Reply ε α}
    (hx : x.Makes P) (hy : y.Makes P) : (if b then x else y).Makes P := by
  split
  · exact hx
  · exact hy

theorem Makes.bind {P : Call → Prop} {x : Prog Reply ε α} {f : α → Prog Reply ε β}
    (hx : x.Makes P) (hf : ∀ a, (f a).Makes P) : (x >>= f).Makes P := by
  induction x with
  | ret a => exact hf a
  | stop e => trivial
  | call c k ih => exact ⟨hx.1, fun r => ih r (hx.2 r)⟩

theorem Makes.mono {P P' : Call → Prop} {x : Prog Reply ε α} (hx : x.Makes P)
    (h : ∀ c, P c → P' c) : x.Makes P' := by
  induction x with
  | ret a => trivial
  | stop e => trivial
  | call c k ih => exact ⟨h c hx.1, fun r => ih r (hx.2 r)⟩

/-! ## A program alone -/

/-- The run of a program whose calls `handle` answers, with the world it leaves. -/
def run (handle : W → (c : Call) → Reply c × W) : Prog Reply ε α → W → Except ε α × W
  | ret a, w => (.ok a, w)
  | stop e, w => (.error e, w)
  | call c k, w => (k (handle w c).1).run handle (handle w c).2

/-- The first calls of a run, at most `n` of them: what is left of the program, and the world. -/
def advance (handle : W → (c : Call) → Reply c × W) :
    ℕ → Prog Reply ε α → W → Prog Reply ε α × W
  | 0, x, w => (x, w)
  | _ + 1, ret a, w => (ret a, w)
  | _ + 1, stop e, w => (stop e, w)
  | n + 1, call c k, w => (k (handle w c).1).advance handle n (handle w c).2

/-- The program that has ended with `r`. -/
def ended : Except ε α → Prog Reply ε α
  | .ok a => ret a
  | .error e => stop e

variable {handle : W → (c : Call) → Reply c × W}

@[simp] theorem run_ret (a : α) (w : W) :
    (ret a : Prog Reply ε α).run handle w = (.ok a, w) := rfl

@[simp] theorem run_stop (e : ε) (w : W) :
    (stop e : Prog Reply ε α).run handle w = (.error e, w) := rfl

@[simp] theorem run_call (c : Call) (k : Reply c → Prog Reply ε α) (w : W) :
    (call c k).run handle w = (k (handle w c).1).run handle (handle w c).2 := rfl

@[simp] theorem run_perform (c : Call) (w : W) :
    (perform c : Prog Reply ε (Reply c)).run handle w = (.ok (handle w c).1, (handle w c).2) := rfl

/-- What is left of a run when its first part has ended. -/
def andThen (f : α → Prog Reply ε β) (handle : W → (c : Call) → Reply c × W) :
    Except ε α × W → Except ε β × W
  | (.ok a, w) => (f a).run handle w
  | (.error e, w) => (.error e, w)

@[simp] theorem andThen_ok (f : α → Prog Reply ε β) (a : α) (w : W) :
    andThen f handle (.ok a, w) = (f a).run handle w := rfl

@[simp] theorem andThen_error (f : α → Prog Reply ε β) (e : ε) (w : W) :
    andThen f handle (.error e, w) = (.error e, w) := rfl

theorem run_bind (x : Prog Reply ε α) (f : α → Prog Reply ε β) (w : W) :
    (x >>= f).run handle w = andThen f handle (x.run handle w) := by
  induction x generalizing w with
  | ret a => rfl
  | stop e => rfl
  | call c k ih => exact ih _ _

/-- What the answers to the calls of a program leave unchanged, its run leaves unchanged. -/
theorem run_of_makes {P : Call → Prop} {R : W → W → Prop} (hrefl : ∀ w, R w w)
    (htrans : ∀ u v w, R u v → R v w → R u w) (hP : ∀ w c, P c → R w (handle w c).2)
    {x : Prog Reply ε α} (h : x.Makes P) (w : W) : R w (x.run handle w).2 := by
  induction x generalizing w with
  | ret a => exact hrefl w
  | stop e => exact hrefl w
  | call c k ih => exact htrans _ _ _ (hP w c h.1) (ih _ (h.2 _) _)

/-- The last call of a program is answered in the world the program leaves. -/
theorem run_closing (x : Prog Reply ε α) (c : Call) (w : W) :
    (x.closing c).run handle w =
      ((x.run handle w).1, (handle (x.run handle w).2 c).2) := by
  induction x generalizing w with
  | ret a => rfl
  | stop e => rfl
  | call d k ih => exact ih _ _

end Prog

/-! ## Many programs -/

/-- What a call of a process may be answered, and the world it leaves. -/
abbrev Semantics (Reply : Call → Type) (W : Type) :=
  ℕ → W → (c : Call) → Reply c → W → Prop

/-- The processes of a system and the world they share. A process that has not made a call yet
has not begun, so a pool has all the processes there will ever be. -/
structure Pool (Reply : Call → Type) (ε α W : Type) where
  procs : ℕ → Prog Reply ε α
  world : W

namespace Pool

variable {S : Semantics Reply W} {progs : ℕ → Prog Reply ε α} {init : W → Prop}

/-- One process makes one call. -/
inductive Step (S : Semantics Reply W) : Pool Reply ε α W → Pool Reply ε α W → Prop
  | mk {s : Pool Reply ε α W} {p : ℕ} {c : Call} {k : Reply c → Prog Reply ε α} {r : Reply c}
      {w : W} (hp : s.procs p = .call c k) (hw : S p s.world c r w) :
      Step S s ⟨Function.update s.procs p (k r), w⟩

end Pool

/-- The system of the processes `progs` over `S`, from the worlds `init`. -/
def pool (S : Semantics Reply W) (progs : ℕ → Prog Reply ε α) (init : W → Prop) :
    TransitionSystem (Pool Reply ε α W) where
  init s := s.procs = progs ∧ init s.world
  step := Pool.Step S

/-- The processes `progs` over `S`, in an environment that changes the world between the calls. -/
def poolIn (env : W → W → Prop) (S : Semantics Reply W) (progs : ℕ → Prog Reply ε α)
    (init : W → Prop) : TransitionSystem (Pool Reply ε α W) where
  init s := s.procs = progs ∧ init s.world
  step s t := Pool.Step S s t ∨ (t.procs = s.procs ∧ env s.world t.world)

/-- `S` with a history variable, to which `note` adds what happens. -/
def Semantics.recording (S : Semantics Reply W)
    (note : ℕ → W → (c : Call) → Reply c → W → H → H) : Semantics Reply (W × H) :=
  fun p w c r w' => S p w.1 c r w'.1 ∧ w'.2 = note p w.1 c r w'.1 w.2

/-! ## Disciplines -/

/-- An order in which calls may be made. -/
structure Discipline (Reply : Call → Type) (Phase : Type) where
  /-- The calls that may be made in a phase. -/
  Allows : Phase → Call → Prop
  /-- The phase that a reply leaves. -/
  next : Phase → (c : Call) → Reply c → Phase

namespace Discipline

variable (D : Discipline Reply Phase)

/-- From the phase `g` the program makes allowed calls only, whatever the replies; where it
returns, phase and value satisfy `Q`, and where it stops, phase and reason satisfy `E`. -/
def Keeps (Q : Phase → α → Prop) (E : Phase → ε → Prop) : Phase → Prog Reply ε α → Prop
  | g, .ret a => Q g a
  | g, .stop e => E g e
  | g, .call c k => D.Allows g c ∧ ∀ r, Keeps Q E (D.next g c r) (k r)

variable {D} {Q Q' : Phase → α → Prop} {E E' : Phase → ε → Prop}

@[simp] theorem keeps_ret (g : Phase) (a : α) :
    D.Keeps Q E g (.ret a : Prog Reply ε α) ↔ Q g a := Iff.rfl

@[simp] theorem keeps_stop (g : Phase) (e : ε) :
    D.Keeps Q E g (.stop e : Prog Reply ε α) ↔ E g e := Iff.rfl

@[simp] theorem keeps_call (g : Phase) (c : Call) (k : Reply c → Prog Reply ε α) :
    D.Keeps Q E g (.call c k) ↔ D.Allows g c ∧ ∀ r, D.Keeps Q E (D.next g c r) (k r) :=
  Iff.rfl

/-- **Sequence.** -/
theorem keeps_bind {R : Phase → β → Prop} (g : Phase) (x : Prog Reply ε α)
    (f : α → Prog Reply ε β) :
    D.Keeps R E g (x >>= f) ↔ D.Keeps (fun g a => D.Keeps R E g (f a)) E g x := by
  induction x generalizing g with
  | ret a => rfl
  | stop e => rfl
  | call c k ih => exact and_congr_right fun _ => forall_congr' fun r => ih r _

theorem keeps_ite {b : Prop} [Decidable b] {g : Phase} {x y : Prog Reply ε α}
    (hx : b → D.Keeps Q E g x) (hy : ¬ b → D.Keeps Q E g y) :
    D.Keeps Q E g (if b then x else y) := by
  split
  · exact hx ‹_›
  · exact hy ‹_›

theorem Keeps.mono {g : Phase} {x : Prog Reply ε α} (h : D.Keeps Q E g x)
    (hQ : ∀ g a, Q g a → Q' g a) (hE : ∀ g e, E g e → E' g e) : D.Keeps Q' E' g x := by
  induction x generalizing g with
  | ret a => exact hQ _ _ h
  | stop e => exact hE _ _ h
  | call c k ih => exact ⟨h.1, fun r => ih r (h.2 r)⟩

/-- Calls that are always allowed and leave the phase as it is need no proof one by one. -/
theorem keeps_of_makes {P : Call → Prop} {g : Phase} {x : Prog Reply ε α} (h : x.Makes P)
    (hP : ∀ c, P c → D.Allows g c ∧ ∀ r, D.next g c r = g) (hQ : ∀ a, Q g a) (hE : ∀ e, E g e) :
    D.Keeps Q E g x := by
  induction x with
  | ret a => exact hQ a
  | stop e => exact hE e
  | call c k ih =>
    refine ⟨(hP c h.1).1, fun r => ?_⟩
    rw [(hP c h.1).2 r]
    exact ih r (h.2 r)

/-- A last call has to be allowed wherever the program ends. -/
theorem keeps_closing {g : Phase} {x : Prog Reply ε α} {c : Call}
    (h : D.Keeps (fun g a => D.Allows g c ∧ ∀ r, Q (D.next g c r) a)
      (fun g e => D.Allows g c ∧ ∀ r, E (D.next g c r) e) g x) :
    D.Keeps Q E g (x.closing c) := by
  induction x generalizing g with
  | ret a => exact h
  | stop e => exact h
  | call d k ih => exact ⟨h.1, fun r => ih r (h.2 r)⟩

/-- Two disciplines at once. -/
def prod {Phase' : Type} (D : Discipline Reply Phase) (D' : Discipline Reply Phase') :
    Discipline Reply (Phase × Phase') where
  Allows g c := D.Allows g.1 c ∧ D'.Allows g.2 c
  next g c r := (D.next g.1 c r, D'.next g.2 c r)

theorem keeps_prod {Phase' : Type} {D' : Discipline Reply Phase'} {R : Phase' → α → Prop}
    {F : Phase' → ε → Prop} {g : Phase} {g' : Phase'} {x : Prog Reply ε α}
    (h : D.Keeps Q E g x) (h' : D'.Keeps R F g' x) :
    (D.prod D').Keeps (fun g a => Q g.1 a ∧ R g.2 a) (fun g e => E g.1 e ∧ F g.2 e) (g, g') x := by
  induction x generalizing g g' with
  | ret a => exact ⟨h, h'⟩
  | stop e => exact ⟨h, h'⟩
  | call c k ih => exact ⟨⟨h.1, h'.1⟩, fun r => ih r (h.2 r) (h'.2 r)⟩

end Discipline

/-! ## Runs of a system -/

namespace Pool

variable {S : Semantics Reply W} {progs : ℕ → Prog Reply ε α} {init : W → Prop}

/-- **Invariants of a system in an environment.** Let each program keep to its discipline, and let
`I`, a property of the phases of all processes and of the world, be kept by every call that a
discipline allows and by the environment. Then every reachable state has phases in which each
process still keeps to its discipline and `I` holds. -/
theorem invariant_in {env : W → W → Prop} {D : ℕ → Discipline Reply Phase}
    {Q : ℕ → Phase → α → Prop} {E : ℕ → Phase → ε → Prop} {I : (ℕ → Phase) → W → Prop}
    {start : ℕ → Phase}
    (hkeeps : ∀ p, (D p).Keeps (Q p) (E p) (start p) (progs p))
    (hinit : ∀ w, init w → I start w)
    (hstep : ∀ g w p c r w', I g w → (D p).Allows (g p) c → S p w c r w' →
      I (Function.update g p ((D p).next (g p) c r)) w')
    (henv : ∀ g w w', I g w → env w w' → I g w')
    {s : Pool Reply ε α W} (h : (poolIn env S progs init).Reachable s) :
    ∃ g : ℕ → Phase, (∀ p, (D p).Keeps (Q p) (E p) (g p) (s.procs p)) ∧ I g s.world := by
  refine h.invariant (P := fun s => ∃ g : ℕ → Phase,
    (∀ p, (D p).Keeps (Q p) (E p) (g p) (s.procs p)) ∧ I g s.world) ?_ ?_
  · rintro s ⟨hprocs, hw⟩
    exact ⟨start, by rw [hprocs]; exact hkeeps, hinit _ hw⟩
  · rintro s t ⟨g, hg, hI⟩ (⟨hp, hw⟩ | ⟨hprocs, hw⟩)
    · rename_i p c k r w
      have hcall := hg p
      rw [hp] at hcall
      refine ⟨Function.update g p ((D p).next (g p) c r), ?_, hstep g _ p c r w hI hcall.1 hw⟩
      intro q
      by_cases hq : q = p
      · subst hq
        simpa using hcall.2 r
      · simpa [hq] using hg q
    · exact ⟨g, by rw [hprocs]; exact hg, henv g _ _ hI hw⟩

/-- **Invariants of a system.** Without an environment. -/
theorem invariant {D : ℕ → Discipline Reply Phase} {Q : ℕ → Phase → α → Prop}
    {E : ℕ → Phase → ε → Prop} {I : (ℕ → Phase) → W → Prop} {start : ℕ → Phase}
    (hkeeps : ∀ p, (D p).Keeps (Q p) (E p) (start p) (progs p))
    (hinit : ∀ w, init w → I start w)
    (hstep : ∀ g w p c r w', I g w → (D p).Allows (g p) c → S p w c r w' →
      I (Function.update g p ((D p).next (g p) c r)) w')
    {s : Pool Reply ε α W} (h : (pool S progs init).Reachable s) :
    ∃ g : ℕ → Phase, (∀ p, (D p).Keeps (Q p) (E p) (g p) (s.procs p)) ∧ I g s.world := by
  have hs : (poolIn (fun _ _ => False) S progs init).Reachable s :=
    h.mono (fun _ hinit => hinit) fun _ _ hst => Or.inl hst
  exact invariant_in hkeeps hinit hstep (fun _ _ _ _ hf => hf.elim) hs

/-- Whatever is noted, the runs of a system are those of the system that notes it. -/
theorem recorded (note : ℕ → W → (c : Call) → Reply c → W → H → H) (h₀ : W → H)
    {s : Pool Reply ε α W} (h : (pool S progs init).Reachable s) :
    ∃ n : H, (pool (S.recording note) progs fun w => init w.1 ∧ w.2 = h₀ w.1).Reachable
      ⟨s.procs, (s.world, n)⟩ := by
  induction h with
  | init h => exact ⟨h₀ _, .init ⟨h.1, h.2, rfl⟩⟩
  | @step s _ hs hst ih =>
    obtain ⟨n, hn⟩ := ih
    obtain ⟨hp, hw⟩ := hst
    rename_i p c k r w
    have hrec : S.recording note p (s.world, n) c r (w, note p s.world c r w n) := ⟨hw, rfl⟩
    exact ⟨_, hn.step (.mk hp hrec)⟩

/-- A process that moves while no other does, for at most `n` calls. -/
theorem advance_reachable {handle : W → (c : Call) → Reply c × W} {p : ℕ}
    (hhandle : ∀ w c, S p w c (handle w c).1 (handle w c).2) (n : ℕ) {s : Pool Reply ε α W}
    (h : (pool S progs init).Reachable s) :
    (pool S progs init).Reachable
      ⟨Function.update s.procs p ((s.procs p).advance handle n s.world).1,
        ((s.procs p).advance handle n s.world).2⟩ := by
  obtain ⟨procs, w⟩ := s
  have hidle : ∀ x, procs p = x → Function.update procs p x = procs := by
    rintro x rfl
    exact Function.update_eq_self ..
  induction n generalizing procs w with
  | zero => simpa [Prog.advance, hidle _ rfl] using h
  | succ n ih =>
    rcases hx : procs p with a | e | ⟨c, k⟩
    · simpa [Prog.advance, hx, hidle _ hx] using h
    · simpa [Prog.advance, hx, hidle _ hx] using h
    · have hrest := ih _ _ (h.step ⟨hx, hhandle w c⟩) (by
        rintro x rfl
        exact Function.update_eq_self ..)
      simpa [Prog.advance, hx] using hrest

/-- **A program alone.** Where a handler answers as the system may, the run of process `p` alone
is a run of the system. -/
theorem run_reachable {handle : W → (c : Call) → Reply c × W} {p : ℕ}
    (hhandle : ∀ w c, S p w c (handle w c).1 (handle w c).2) {s : Pool Reply ε α W}
    (h : (pool S progs init).Reachable s) :
    (pool S progs init).Reachable
      ⟨Function.update s.procs p (.ended ((s.procs p).run handle s.world).1),
        ((s.procs p).run handle s.world).2⟩ := by
  obtain ⟨procs, w⟩ := s
  generalize hx : procs p = x
  induction x generalizing procs w with
  | ret a =>
    have hprocs : Function.update procs p (.ret a) = procs := by rw [← hx, Function.update_eq_self]
    simpa [Prog.ended, hx, hprocs] using h
  | stop e =>
    have hprocs : Function.update procs p (.stop e) = procs := by rw [← hx, Function.update_eq_self]
    simpa [Prog.ended, hx, hprocs] using h
  | call c k ih =>
    have hrest := ih _ _ _ (h.step ⟨hx, hhandle w c⟩) (Function.update_self ..)
    simpa [hx] using hrest

end Pool

end LeapPlatforms
