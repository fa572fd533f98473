import LeapPlatforms.LeapFpgaCtrl.Conduct
import LeapPlatforms.LeapFpgaCtrl.FailureAtomicity

/-!
# One board is programmed at a time

The programming lock file is meant to be there as long as a board is being programmed, and with
it to keep a second board from being programmed. It fails to where an invocation treats the file
as its own that another has created: an invocation that is to program a board goes on when the
file names the board, and if the board is somebody else's it then removes the file, with which
its creator is still on the way to the reservation (`programming_without_lock`). An invocation
that gives up on a reservation file removes the lock file as well.

The statement that holds is about the runs in which no step does that. Who has the file is noted
along the run: its creator, until the board it is created for is being programmed; then nobody;
and from the end of the programming on the invocation that ends it, until it has removed the file.
An invocation may take a file for its own that nobody has while no board is being programmed.

## Main definitions

* `noteKeeper`, `Careful`, `carefulCtrl`
* `Exclusive`

## Main results

* `programming_is_exclusive`
* `programming_without_lock`
-/

namespace LeapPlatforms

namespace LeapFpgaCtrl

open Scan Prog

/-- The reservation file `f` says that its board is being programmed. -/
def Programming (w : Files) (f : String) : Prop := stateOf (w.res f) = .program

instance (w : Files) (f : String) : Decidable (Programming w f) :=
  inferInstanceAs (Decidable (_ = _))

/-- At most one board is being programmed, and the lock file is there while one is. -/
structure Exclusive (w : Files) : Prop where
  one : ∀ f f', Programming w f → Programming w f' → f = f'
  locked : ∀ f, Programming w f → w.progLock ≠ none

/-- The invocation `inv` removes the lock file when it gives up on a reservation file and finds
`stale` in the variable without a value. -/
def GivesUp (inv : Invocation) (stale : BitVec 32) : Prop :=
  (inv.programs ∨ inv.signs) ∧ stale.toNat ≠ FpgaState.program.code

instance (inv : Invocation) (stale : BitVec 32) : Decidable (GivesUp inv stale) :=
  inferInstanceAs (Decidable (_ ∧ _))

/-- The invocation `inv` is to program a board, and finds it in another state. -/
def Starts (inv : Invocation) (t : Text) : Prop :=
  inv.programs = true ∧ stateOf t ≠ .program

instance (inv : Invocation) (t : Text) : Decidable (Starts inv t) :=
  inferInstanceAs (Decidable (_ ∧ _))

/-- The process that has the lock file, if there is one. -/
def noteKeeper (invs : ℕ → Invocation) (p : ℕ) (w : Files) (c : Call) (r : Reply c) (_ : Files)
    (keeper : Option ℕ) : Option ℕ :=
  match c, r with
  | .createLock, (r : Bool) => if r then some p else keeper
  | .uninitialised, (stale : BitVec 32) =>
    if GivesUp (invs p) stale ∧ keeper = none then some p else keeper
  | .readRes _, (t : Text) => if Starts (invs p) t ∧ keeper = none then some p else keeper
  | .writeRes f t, _ =>
    if stateOf t = .program then
      if keeper = some p then none else keeper
    else if Programming w f then some p
    else keeper
  | .unlinkLock, _ => if keeper = some p then none else keeper
  | .exit, _ => if keeper = some p then none else keeper
  | _, _ => keeper

/-- The lock file is the process's own, or has been left behind by the processes that had it. -/
def MayTake (p : ℕ) (w : Files) (keeper : Option ℕ) : Prop :=
  keeper = some p ∨ (keeper = none ∧ w.progLock ≠ none ∧ ∀ f, ¬ Programming w f)

/-- A step that takes no lock file for the process's own which is another's. -/
def Careful (invs : ℕ → Invocation) (p : ℕ) (w : Files) (keeper : Option ℕ) (c : Call)
    (r : Reply c) : Prop :=
  match c, r with
  | .uninitialised, (stale : BitVec 32) => GivesUp (invs p) stale → MayTake p w keeper
  | .readRes _, (t : Text) => Starts (invs p) t → MayTake p w keeper
  | _, _ => True

/-- The host, with the keeper of the lock file, in the runs whose steps are all careful. -/
def carefulCtrl (host : Host) (invs : ℕ → Invocation) :
    TransitionSystem (Pool Reply Stop (List Text) (Files × Option ℕ)) :=
  pool
    (fun p w c r w' =>
      Semantics.recording Answers (noteKeeper invs) p w c r w' ∧ Careful invs p w.1 w.2 c r)
    (fun p => invocation host (invs p)) fun w => Exclusive w.1 ∧ w.2 = none

variable {host : Host} {invs : ℕ → Invocation} {g : ℕ → Phase} {w w' : Files}
  {k k' : Option ℕ} {p : ℕ}

/-- Who has the lock file, in every reachable state. -/
structure Keeping (g : ℕ → Phase) (w : Files) (k : Option ℕ) : Prop where
  /-- An invocation whose own the file is has it. -/
  mine : ∀ p, (g p).mine = true → k = some p
  /-- A file that somebody has is there. -/
  kept : ∀ p, k = some p → w.progLock ≠ none
  /-- The file of a board that is being programmed is there, and nobody has it. -/
  programming : ∀ f, Programming w f → w.progLock ≠ none ∧ k = none
  one : ∀ f f', Programming w f → Programming w f' → f = f'

/-- A step that leaves the lock file, the boards and who has the file as they are. -/
theorem Keeping.congr {φ : Phase} (h : Keeping g w k)
    (hlock : w'.progLock = none → w.progLock = none)
    (hprog : ∀ f, Programming w' f ↔ Programming w f)
    (hmine : φ.mine = true → (g p).mine = true) :
    Keeping (Function.update g p φ) w' k := by
  refine ⟨fun q hq => ?_, fun q hq hnone => h.kept q hq (hlock hnone), fun f hf => ?_,
    fun f f' hf hf' => h.one f f' ((hprog f).mp hf) ((hprog f').mp hf')⟩
  · by_cases hqp : q = p
    · subst hqp
      exact h.mine q (hmine (by simpa using hq))
    · exact h.mine q (by simpa [hqp] using hq)
  · obtain ⟨hsome, hk⟩ := h.programming f ((hprog f).mp hf)
    exact ⟨fun hnone => hsome (hlock hnone), hk⟩

/-- A process takes a lock file that it may. -/
theorem Keeping.take {φ : Phase} (h : Keeping g w k) (hmay : MayTake p w k)
    (hk : k' = if k = none then some p else k) :
    Keeping (Function.update g p φ) w k' := by
  have hk' : k' = some p := by
    rcases hmay with rfl | ⟨rfl, -⟩ <;> simpa using hk
  have hnone : ∀ f, ¬ Programming w f := by
    rcases hmay with rfl | ⟨-, -, hnone⟩
    · exact fun f hf => by cases (h.programming f hf).2
    · exact hnone
  have hlock : w.progLock ≠ none := by
    rcases hmay with rfl | ⟨-, hlock, -⟩
    · exact h.kept p rfl
    · exact hlock
  refine ⟨fun q hq => ?_, fun _ _ => hlock, fun f hf => absurd hf (hnone f),
    fun f _ hf => absurd hf (hnone f)⟩
  by_cases hqp : q = p
  · rw [hk', hqp]
  · have hq' := h.mine q (by simpa [hqp] using hq)
    rcases hmay with rfl | ⟨rfl, -⟩
    · exact absurd (Option.some.inj hq').symm hqp
    · cases hq'

/-- A process that lets go of the lock file: it is removed, or left behind. -/
theorem Keeping.drop {φ : Phase} (h : Keeping g w k) (hmine : φ.mine = false)
    (hlock : w'.progLock = w.progLock ∨ k = some p) (hres : w'.res = w.res)
    (hk : k' = if k = some p then none else k) :
    Keeping (Function.update g p φ) w' k' := by
  have hprog : ∀ f, Programming w' f ↔ Programming w f := fun f => by
    rw [Programming, Programming, hres]
  by_cases hp : k = some p
  · -- The file was the process's own, and no board is being programmed.
    rw [if_pos hp] at hk
    have hnone : ∀ f, ¬ Programming w' f := fun f hf => by
      have hk := (h.programming f ((hprog f).mp hf)).2
      rw [hp] at hk
      cases hk
    have hkept : ∀ q, k' = some q → w'.progLock ≠ none := by
      intro q hq
      rw [hk] at hq
      cases hq
    refine ⟨fun q hq => ?_, hkept, fun f hf => absurd hf (hnone f),
      fun f _ hf => absurd hf (hnone f)⟩
    by_cases hqp : q = p
    · subst hqp
      simp [hmine] at hq
    · have hq' := h.mine q (by simpa [hqp] using hq)
      rw [hp] at hq'
      exact absurd (Option.some.inj hq').symm hqp
  · rw [if_neg hp] at hk
    rw [hk]
    rcases hlock with hlock | hp'
    · have hφ : φ.mine = true → (g p).mine = true := by simp [hmine]
      exact h.congr (fun hnone => hlock ▸ hnone) hprog hφ
    · exact absurd hp' hp

theorem keeping_step {c : Call} {r : Reply c} (hholds : Holds g w) (h : Keeping g w k)
    (hallows : (conduct (invs p)).Allows (g p) c) (hw : Answers p w c r w')
    (hcareful : Careful invs p w k c r) (hk : k' = noteKeeper invs p w c r w' k) :
    Keeping (Function.update g p ((conduct (invs p)).next (g p) c r)) w' k' := by
  cases c with
  | createLock =>
    obtain ⟨hr, rfl⟩ := hw
    rcases r with _ | _
    · rw [hk]
      exact h.congr id (fun _ => Iff.rfl) id
    · have hnone : w.progLock = none := Option.isNone_iff_eq_none.mp hr.symm
      have hno : ∀ f, ¬ Programming w f := fun f hf => (h.programming f hf).1 hnone
      refine ⟨fun q hq => ?_, fun q _ => by simp, fun f hf => absurd hf (hno f),
        fun f _ hf => absurd hf (hno f)⟩
      by_cases hqp : q = p
      · rw [hk, hqp]
        rfl
      · exact absurd hnone (h.kept q (h.mine q (by simpa [hqp] using hq)))
  | writeLock id =>
    obtain rfl := hw
    rw [hk]
    exact h.congr Option.map_eq_none_iff.mp (fun _ => Iff.rfl) fun hφ => hφ
  | readLock =>
    obtain ⟨-, rfl⟩ := hw
    rw [hk]
    exact h.congr id (fun _ => Iff.rfl) id
  | unlinkLock =>
    obtain rfl := hw
    exact h.drop rfl (.inr (h.mine p hallows)) rfl hk
  | openRes f =>
    obtain rfl := hw
    rw [hk]
    exact h.congr id (fun _ => Iff.rfl) id
  | lockRes f =>
    obtain ⟨-, rfl⟩ := hw
    rw [hk]
    rcases r with _ | _ <;> exact h.congr id (fun _ => Iff.rfl) id
  | uninitialised =>
    obtain rfl := hw
    by_cases hgives : GivesUp (invs p) r
    · refine h.take (hcareful hgives) ?_
      rw [hk]
      simp [noteKeeper, hgives]
    · have hnext : (conduct (invs p)).next (g p) .uninitialised r = g p := if_neg hgives
      have hkeep : k' = k := by
        rw [hk]
        simp [noteKeeper, hgives]
      rw [hkeep, hnext]
      exact h.congr id (fun _ => Iff.rfl) id
  | readRes f =>
    obtain ⟨rfl, rfl⟩ := hw
    by_cases hstarts : Starts (invs p) (w'.res f)
    · refine h.take (hcareful hstarts) ?_
      rw [hk]
      simp [noteKeeper, hstarts]
    · have hkeep : k' = k := by
        rw [hk]
        simp [noteKeeper, hstarts]
      rw [hkeep]
      refine h.congr id (fun _ => Iff.rfl) fun hmine => ?_
      have hor : (g p).mine = true ∨
          ((invs p).programs = true ∧ stateOf (w'.res f) ≠ .program) := by
        simpa [conduct] using hmine
      exact hor.resolve_right hstarts
  | writeRes f t =>
    obtain rfl := hw
    obtain ⟨hheld, told, hknown, -, hprog⟩ := hallows
    have hold : Programming w f ↔ stateOf told = .program := by
      rw [Programming, hholds.known p f told hheld hknown]
    have hself : Programming { w with res := Function.update w.res f t } f ↔
        stateOf t = .program := by
      simp [Programming]
    have hother : ∀ f' ≠ f, Programming { w with res := Function.update w.res f t } f' ↔
        Programming w f' := by
      intro f' hf'
      simp [Programming, hf']
    have hmine : ((conduct (invs p)).next (g p) (.writeRes f t) r).mine =
        decide (stateOf told = .program ∧ stateOf t ≠ .program) := by
      simp [conduct, hknown]
    by_cases ht : stateOf t = .program
    · -- The board is now being programmed; the lock file goes over to it.
      have hmay : w.progLock ≠ none ∧ (k = some p ∨ k = none) ∧
          ∀ f', Programming w f' → f' = f := by
        rcases hprog ht with hm | htold
        · have hkp := h.mine p hm
          refine ⟨h.kept p hkp, .inl hkp, fun f' hf' => ?_⟩
          have hnone := (h.programming f' hf').2
          rw [hkp] at hnone
          cases hnone
        · obtain ⟨hlock, hnone⟩ := h.programming f (hold.mpr htold)
          exact ⟨hlock, .inr hnone, fun f' hf' => h.one f' f hf' (hold.mpr htold)⟩
      obtain ⟨hlock, hkeeper, honly⟩ := hmay
      have hk' : k' = none := by
        rw [hk]
        rcases hkeeper with rfl | rfl <;> simp [noteKeeper, ht]
      have hall : ∀ f', Programming { w with res := Function.update w.res f t } f' → f' = f := by
        intro f' hf'
        by_contra hne
        exact hne (honly f' ((hother f' hne).mp hf'))
      refine ⟨fun q hq => ?_, fun _ _ => hlock, fun _ _ => ⟨hlock, hk'⟩, fun f₁ f₂ h₁ h₂ => ?_⟩
      · by_cases hqp : q = p
        · subst hqp
          simp [hmine, ht] at hq
        · have hq' := h.mine q (by simpa [hqp] using hq)
          rcases hkeeper with rfl | rfl
          · exact absurd (Option.some.inj hq').symm hqp
          · cases hq'
      · rw [hall f₁ h₁, hall f₂ h₂]
    by_cases htold : stateOf told = .program
    · -- The programming of the board is over; the file is removed by the process that ends it.
      obtain ⟨hlock, hnone⟩ := h.programming f (hold.mpr htold)
      have hk' : k' = some p := by
        rw [hk]
        simp [noteKeeper, ht, hold.mpr htold]
      have hno : ∀ f', ¬ Programming { w with res := Function.update w.res f t } f' := by
        intro f' hf'
        by_cases hf : f' = f
        · subst hf
          exact ht (hself.mp hf')
        · exact hf (h.one f' f ((hother f' hf).mp hf') (hold.mpr htold))
      refine ⟨fun q hq => ?_, fun _ _ => hlock, fun f' hf' => absurd hf' (hno f'),
        fun f' _ hf' => absurd hf' (hno f')⟩
      by_cases hqp : q = p
      · rw [hk', hqp]
      · have hq' := h.mine q (by simpa [hqp] using hq)
        rw [hnone] at hq'
        cases hq'
    · -- Neither before nor after.
      have hk' : k' = k := by
        rw [hk]
        simp [noteKeeper, ht, mt hold.mp htold]
      rw [hk']
      refine h.congr id (fun f' => ?_) fun hm => by simp [hmine, htold] at hm
      by_cases hf : f' = f
      · subst hf
        exact hself.trans ⟨fun h => absurd h ht, fun h => absurd (hold.mp h) htold⟩
      · exact hother f' hf
  | closeRes f =>
    obtain rfl := hw
    rw [hk]
    exact h.congr id (fun _ => Iff.rfl) id
  | peekRes f =>
    obtain ⟨-, rfl⟩ := hw
    rw [hk]
    exact h.congr id (fun _ => Iff.rfl) id
  | runScript cls cmd number path =>
    obtain ⟨_, rfl⟩ := hw
    rw [hk]
    exact h.congr id (fun _ => Iff.rfl) id
  | stat path =>
    obtain ⟨rfl, -⟩ := hw
    rw [hk]
    exact h.congr id (fun _ => Iff.rfl) id
  | chown path uid =>
    obtain rfl := hw
    rw [hk]
    rcases r with _ | _ <;> exact h.congr id (fun _ => Iff.rfl) id
  | chmod path mode =>
    obtain rfl := hw
    rw [hk]
    rcases r with _ | _ <;> exact h.congr id (fun _ => Iff.rfl) id
  | exit =>
    obtain rfl := hw
    exact h.drop rfl (.inl rfl) rfl hk

/-- **Mutual exclusion of programming.** In every run whose steps are all careful at most one
board is being programmed, and the lock file is there while one is. -/
theorem programming_is_exclusive
    {s : Pool Reply Stop (List Text) (Files × Option ℕ)}
    (h : (carefulCtrl host invs).Reachable s) : Exclusive s.world.1 := by
  have hinit : ∀ w : Files × Option ℕ, (Exclusive w.1 ∧ w.2 = none) →
      Holds (fun _ => .start) w.1 ∧ Keeping (fun _ => .start) w.1 w.2 := by
    rintro ⟨w, k⟩ ⟨hw, rfl⟩
    refine ⟨.start, ?_, ?_, fun f hf => ⟨hw.locked f hf, rfl⟩, hw.one⟩
    · rintro p ⟨⟩
    · rintro p ⟨⟩
  obtain ⟨g, -, -, hkeeping⟩ := Pool.invariant
    (I := fun g w => Holds g w.1 ∧ Keeping g w.1 w.2)
    (fun p => keeps_invocation host (invs p)) hinit
    (fun g w p c r w' hI hallows hw => ⟨holds_step hI.1 hallows hw.1.1,
      keeping_step hI.1 hI.2 hallows hw.1.1 hw.2 hw.1.2⟩) h
  exact ⟨hkeeping.one, fun f hf => (hkeeping.programming f hf).1⟩

/-- The only board, while the user 1000 is programming it. -/
def whileProgramming : Files where
  progLock := some ⟨0, ['0', '\n']⟩
  res := fun f => if f = "board" then printReservation 1000 .program [] else []
  resLock := fun _ => none
  dev := fun _ => none

/-- The user activates the board, which ends its programming. -/
theorem programming_is_exclusive_activate :
    ∃ s, (carefulCtrl oneBoard fun _ => request .activate).Reachable s ∧
      s.world.1.progLock = none ∧ stateOf (s.world.1.res "board") = .active ∧
      Exclusive s.world.1 := by
  have hboard : ∀ f, Programming whileProgramming f → f = "board" := by
    intro f hf
    by_contra hne
    have hfree : stateOf (whileProgramming.res f) = .free := by
      rw [show whileProgramming.res f = [] from if_neg hne]
      rfl
    rw [show stateOf (whileProgramming.res f) = .program from hf] at hfree
    cases hfree
  have hinit : Exclusive whileProgramming :=
    ⟨fun f f' hf hf' => (hboard f hf).trans (hboard f' hf').symm, fun _ _ => by rintro ⟨⟩⟩
  let handle (w : Files × Option ℕ) (c : Call) : Reply c × (Files × Option ℕ) :=
    ((calm.answer w.1 c).1, (calm.answer w.1 c).2,
      noteKeeper (fun _ => request .activate) 0 w.1 c (calm.answer w.1 c).1 (calm.answer w.1 c).2
        w.2)
  have hhandle : ∀ w c, Semantics.recording Answers (noteKeeper fun _ => request .activate) 0 w c
      (handle w c).1 (handle w c).2 ∧
        Careful (fun _ => request .activate) 0 w.1 w.2 c (handle w c).1 := by
    intro w c
    refine ⟨⟨calm.answers_answer w.1 c, rfl⟩, ?_⟩
    cases c <;> first | trivial | skip
    case uninitialised =>
      rintro ⟨h | h, -⟩ <;> cases h
    case readRes f =>
      rintro ⟨h, -⟩
      cases h
  have hrun := Pool.advance_reachable hhandle 20
    (.init ⟨rfl, hinit, rfl⟩ : (carefulCtrl oneBoard fun _ => request .activate).Reachable
      ⟨fun _ => invocation oneBoard (request .activate), whileProgramming, none⟩)
  exact ⟨_, hrun, rfl, rfl, programming_is_exclusive hrun⟩

/-! ## Without the care -/

/-- The user 1000 reserves the only board and programs it, while the user 1001 tries to. -/
def twoUsers : ℕ → Invocation
  | 0 => { uid := 1000, force := false, request := .reserve none, deviceId := none, polls := 0 }
  | 1 => { request .program with uid := 1001 }
  | _ + 2 => request .program

/-- The owner of the board has created the lock file and is stopped there. The other user's
invocation goes on with a file that names its board, finds that the board is not its user's, and
removes the file. The owner then programs the board without one. -/
theorem programming_without_lock :
    ¬ ∀ (host : Host) (invs : ℕ → Invocation) (s : Pool Reply Stop (List Text) Files),
      (∀ p, (invs p).force = false) →
      (leapFpgaCtrl host invs (fun w => w.progLock = none ∧ ∀ f, ¬ Programming w f)).Reachable s →
      Exclusive s.world := by
  intro h
  have hforce : ∀ p, (twoUsers p).force = false := by
    intro p
    rcases p with _ | _ | p <;> rfl
  have h₀ : (leapFpgaCtrl oneBoard twoUsers
      (fun w => w.progLock = none ∧ ∀ f, ¬ Programming w f)).Reachable
        ⟨fun p => invocation oneBoard (twoUsers p), noFiles⟩ :=
    .init ⟨rfl, rfl, fun f hf => by cases hf⟩
  have hcalm : ∀ pid w c, Answers pid w c (({ calm with pid := pid } : Surroundings).answer w c).1
      (({ calm with pid := pid } : Surroundings).answer w c).2 :=
    fun pid => ({ calm with pid := pid } : Surroundings).answers_answer
  -- The board is reserved.
  have h₁ := Pool.advance_reachable (hcalm 0) 20 h₀
  -- The owner creates the lock file and writes the number of the board to it.
  have h₂ := Pool.advance_reachable (hcalm 2) 2 h₁
  -- The other user's whole invocation, and the rest of the owner's.
  have h₃ := Pool.advance_reachable (hcalm 1) 20 h₂
  have h₄ := Pool.advance_reachable (hcalm 2) 20 h₃
  have hexclusive := h oneBoard twoUsers _ hforce h₄
  exact hexclusive.locked "board" rfl rfl

end LeapFpgaCtrl

end LeapPlatforms
