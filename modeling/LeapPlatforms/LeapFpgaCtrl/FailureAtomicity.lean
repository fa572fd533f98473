import LeapPlatforms.LeapFpgaCtrl.Invocation

/-!
# What an invocation that fails leaves behind

An invocation that ends with an error should leave the programming lock file and the reservation
files as they were. It has three chances not to. It may fail after it has created the lock file:
on a board that is free, on one that somebody else is programming, or when the reservation file
cannot be opened. It may remove a lock file that another invocation created, since the tests that
guard the removal ask for the state of the board and not for who created the file; one of them
reads a variable that has no value yet. And it may fail after the reservation is written, in the
helper script or at the device file.

The files are those at the moment the invocation begins, and `Surroundings` says how the calls
turn out that depend on more than the files. Whether another process holds a reservation file is
part of the files.

## Main definitions

* `Surroundings`, `Surroundings.answer`, `invoke`
* `Removes`, `KeepsFiles`, `Reserves` — conditions on the files an invocation finds

## Main results

* `run_change_update`, `run_change_unavailable`, `run_change_fails` — what
  `changeCurrentReservation` does to the two files
* `failing_invocation_keeps_files` — exactly when an error leaves both files as they were
* `program_free_board_leaves_lock` — a lock file that is left behind
-/

namespace LeapPlatforms

namespace LeapFpgaCtrl

open Scan Prog

/-! ## One invocation -/

/-- How the calls of one invocation turn out. -/
structure Surroundings where
  /-- The process of the invocation. -/
  pid : ℕ
  /-- Whether a reservation file can be opened. -/
  opens : String → Bool
  /-- What happens to be in the variable without a value. -/
  stale : BitVec 32
  script : String → String → ScriptResult
  /-- What a script does to the device files. -/
  scriptDev : (String → Option DevFile) → String → Option DevFile
  statFails : String → Bool
  chowns : String → Bool
  chmods : String → Bool

namespace Surroundings

variable (env : Surroundings)

/-- The reservation file `f` is not held by another process. -/
def Free (w : Files) (f : String) : Prop :=
  w.resLock f = none ∨ w.resLock f = some env.pid

instance (w : Files) (f : String) : Decidable (env.Free w f) :=
  inferInstanceAs (Decidable (_ ∨ _))

/-- The replies of the host in these surroundings. -/
def answer (w : Files) : (c : Call) → Reply c × Files
  | .createLock =>
    (w.progLock.isNone,
      if w.progLock.isNone then { w with progLock := some ⟨env.pid, []⟩ } else w)
  | .writeLock id =>
    ((), { w with progLock := w.progLock.map fun l =>
      if l.creator = env.pid then { l with text := showInt id ++ ['\n'] } else l })
  | .readLock => (w.progLock.map LockFile.text, w)
  | .unlinkLock => ((), { w with progLock := none })
  | .openRes f => (env.opens f, w)
  | .lockRes f =>
    (decide (env.Free w f),
      if env.Free w f then { w with resLock := Function.update w.resLock f (some env.pid) } else w)
  | .uninitialised => (env.stale, w)
  | .readRes f => (w.res f, w)
  | .writeRes f t => ((), { w with res := Function.update w.res f t })
  | .closeRes f => ((), w.release env.pid (· = f))
  | .peekRes f => (w.res f, w)
  | .runScript cls cmd _ _ => (env.script cls cmd, { w with dev := env.scriptDev w.dev })
  | .stat path =>
    (if env.statFails path then .failed else (w.dev path).elim .missing .found, w)
  | .chown path uid =>
    (env.chowns path,
      if env.chowns path then w.changeDev path fun file => { file with owner := uid } else w)
  | .chmod path mode =>
    (env.chmods path,
      if env.chmods path then w.changeDev path fun file => { file with mode := mode } else w)
  | .exit => ((), w.release env.pid fun _ => True)

/-- The replies are those of the host, so that an invocation alone is a run of it. -/
theorem answers_answer (w : Files) (c : Call) :
    Answers env.pid w c (env.answer w c).1 (env.answer w c).2 := by
  cases c with
  | createLock => exact ⟨rfl, rfl⟩
  | writeLock id => rfl
  | readLock => exact ⟨rfl, rfl⟩
  | unlinkLock => rfl
  | openRes f => rfl
  | lockRes f => exact ⟨rfl, (if_congr (by simp [answer]) rfl rfl)⟩
  | uninitialised => rfl
  | readRes f => exact ⟨rfl, rfl⟩
  | writeRes f t => rfl
  | closeRes f => rfl
  | peekRes f => exact ⟨rfl, rfl⟩
  | runScript cls cmd id dev => exact ⟨_, rfl⟩
  | stat path =>
    refine ⟨rfl, ?_⟩
    by_cases hfails : env.statFails path = true
    · exact .inl (by simp [answer, hfails])
    · exact .inr (by simp [answer, hfails])
  | chown path uid => rfl
  | chmod path mode => rfl
  | exit => rfl

end Surroundings

/-- The invocation `inv` alone, from the files `w`. -/
def invoke (host : Host) (env : Surroundings) (inv : Invocation) (w : Files) :
    Except Stop (List Text) × Files :=
  (invocation host inv).run env.answer w

/-- An invocation that is made while no other moves is a run of the host. -/
theorem invoke_reachable (env : Surroundings) {host : Host} {invs : ℕ → Invocation}
    {init : Files → Prop} {s : Pool Reply Stop (List Text) Files}
    (h : (leapFpgaCtrl host invs init).Reachable s)
    (hbegins : s.procs env.pid = invocation host (invs env.pid)) :
    (leapFpgaCtrl host invs init).Reachable
      ⟨Function.update s.procs env.pid (.ended (invoke host env (invs env.pid) s.world).1),
        (invoke host env (invs env.pid) s.world).2⟩ := by
  have hrun := Pool.run_reachable env.answers_answer h
  rwa [hbegins] at hrun

/-! ## The two files -/

variable {host : Host} {env : Surroundings} {inv : Invocation} {dev : Device} {w w' : Files}
  {newState s : FpgaState} {newSignature : Option Text} {sig : Text} {removes : Bool}

/-- The programming lock file and the reservation files are the same in `w` and `w'`. -/
def Same (w w' : Files) : Prop := w'.progLock = w.progLock ∧ w'.res = w.res

theorem Same.trans {w'' : Files} (h : Same w w') (h' : Same w' w'') : Same w w'' :=
  ⟨h'.1.trans h.1, h'.2.trans h.2⟩

theorem same_answer {c : Call} (hc : c.IsDevice) (w : Files) : Same w (env.answer w c).2 := by
  cases c <;> first | exact hc.elim | skip
  case runScript => exact ⟨rfl, rfl⟩
  case stat => exact ⟨rfl, rfl⟩
  case chown path uid =>
    simp only [Surroundings.answer]
    split <;> exact ⟨rfl, rfl⟩
  case chmod path mode =>
    simp only [Surroundings.answer]
    split <;> exact ⟨rfl, rfl⟩

variable (env) in
/-- Nothing behind the reservation touches the two files. -/
theorem same_of_makes {α : Type} {x : Ctrl α} (h : x.Makes Call.IsDevice) (w : Files) :
    Same w (x.run env.answer w).2 :=
  run_of_makes (R := Same) (fun _ => ⟨rfl, rfl⟩) (fun _ _ _ => Same.trans)
    (fun w _ hc => same_answer hc w) h w

/-! ## Changing the reservation -/

/-- What the reservation file of `dev` says. -/
def old (dev : Device) (w : Files) : Scanned := scanReservation (w.res dev.resFile)

/-- The reservation file can be opened and locked. -/
def Gets (env : Surroundings) (dev : Device) (w : Files) : Prop :=
  env.opens dev.resFile = true ∧ env.Free w dev.resFile

/-- On its way to an error, a request to write `newState` removes the lock file: when it gives up
waiting for the reservation file, if the variable without a value is not `STATE_PROGRAM`, and
when the board is somebody else's and is not being programmed. -/
def Removes (env : Surroundings) (inv : Invocation) (dev : Device) (newState : FpgaState)
    (newSignature : Option Text) (w : Files) : Prop :=
  newState = .program ∧
    ((env.opens dev.resFile = true ∧ ¬ env.Free w dev.resFile ∧
        env.stale.toNat ≠ FpgaState.program.code) ∨
      (Gets env dev w ∧ newSignature = none ∧ (old dev w).oldState ≠ .free ∧
        (old dev w).oldState ≠ .program ∧ inv.uid ≠ (old dev w).owner))

/-- The files after an error that has left the reservations alone. -/
def FailsTo (removes : Prop) (w w' : Files) : Prop :=
  (removes → w'.progLock = none) ∧ (¬ removes → w'.progLock = w.progLock) ∧ w'.res = w.res

theorem run_removeLockIf (b : Bool) (w : Files) :
    (removeLockIf b).run env.answer w =
      (.ok (), if b then { w with progLock := none } else w) := by
  by_cases hb : b = true
  · simp [removeLockIf, hb, Surroundings.answer]
  · simp [removeLockIf, hb]

/-- A reservation file that is free is locked at once. -/
theorem run_lockReservation_free (hfree : env.Free w dev.resFile) (n : ℕ) :
    (lockReservation dev newState n).run env.answer w =
      (.ok (), { w with resLock := Function.update w.resLock dev.resFile (some env.pid) }) := by
  cases n <;> simp [lockReservation, Surroundings.answer, hfree]

/-- A reservation file that is held is given up. -/
theorem run_lockReservation_held (hfree : ¬ env.Free w dev.resFile) (n : ℕ) :
    (lockReservation dev newState n).run env.answer w =
      (.error (.error s!"Error - Failed to acquire lock file: {dev.resFile}"),
        if env.stale.toNat ≠ FpgaState.program.code ∧ newState = .program
          then { w with progLock := none } else w) := by
  induction n with
  | zero =>
    rw [lockReservation]
    simp only [bind_perform, run_call, Surroundings.answer, hfree, decide_false, if_false,
      Bool.false_eq_true, run_bind, run_removeLockIf, andThen_ok, fail, run_stop]
    by_cases hr : env.stale.toNat ≠ FpgaState.program.code ∧ newState = .program
    · rw [if_pos hr, if_pos (by simp [hr])]
    · rw [if_neg hr, if_neg (by simpa using hr)]
  | succ n ih =>
    rw [lockReservation]
    simpa [Surroundings.answer, hfree] using ih

/-- The part of the files that the judgement of a request sees, once it has the reservation. -/
def held (env : Surroundings) (dev : Device) (w : Files) : Files :=
  { w with resLock := Function.update w.resLock dev.resFile (some env.pid) }

theorem run_change_gets (h : Gets env dev w) :
    (changeCurrentReservation host inv dev newState newSignature).run env.answer w =
      (enact dev inv.uid (judge host.pwName inv.uid inv.force newState newSignature
        (old dev w))).run env.answer (held env dev w) := by
  simp [changeCurrentReservation, Surroundings.answer, h.1, run_bind,
    run_lockReservation_free h.2, old, held]

/-- **Updates.** -/
theorem run_change_update (h : Gets env dev w)
    (hjudge : judge host.pwName inv.uid inv.force newState newSignature (old dev w) =
      .update s sig removes) :
    ∃ w', (changeCurrentReservation host inv dev newState newSignature).run env.answer w =
        (.ok true, w') ∧
      w'.progLock = (if removes then none else w.progLock) ∧
      w'.res = Function.update w.res dev.resFile (printReservation inv.uid s sig) := by
  rw [run_change_gets h, hjudge]
  refine ⟨_, by simp [enact, run_bind, run_removeLockIf, Surroundings.answer]; rfl, ?_⟩
  cases removes <;> simp [held]

/-- **Boards that are not available.** -/
theorem run_change_unavailable (h : Gets env dev w)
    (hjudge : judge host.pwName inv.uid inv.force newState newSignature (old dev w) =
      .unavailable) :
    ∃ w', (changeCurrentReservation host inv dev newState newSignature).run env.answer w =
        (.ok false, w') ∧ Same w w' ∧ ∀ f, env.Free w' f ↔ env.Free w f := by
  rw [run_change_gets h, hjudge]
  refine ⟨(held env dev w).release env.pid (· = dev.resFile),
    by simp [enact, Surroundings.answer], ⟨rfl, rfl⟩, ?_⟩
  intro f
  by_cases hf : f = dev.resFile
  · subst hf
    have hfree : w.resLock dev.resFile = none ∨ w.resLock dev.resFile = some env.pid := h.2
    simp [Surroundings.Free, Files.release, held, hfree]
  · simp [Surroundings.Free, Files.release, held, hf]

theorem run_enact_refused (removesLock : Bool) (message : String) :
    (enact dev inv.uid (.refused removesLock message)).run env.answer w =
      (.error (.error message), if removesLock then { w with progLock := none } else w) := by
  simp [enact, run_bind, run_removeLockIf, fail]

/-- **Errors.** -/
theorem run_change_fails
    (h : ¬ (Gets env dev w ∧ ∃ s sig removes,
      judge host.pwName inv.uid inv.force newState newSignature (old dev w) =
        .update s sig removes))
    (h' : ¬ (Gets env dev w ∧
      judge host.pwName inv.uid inv.force newState newSignature (old dev w) = .unavailable)) :
    ∃ message w', (changeCurrentReservation host inv dev newState newSignature).run env.answer w =
        (.error (.error message), w') ∧
      FailsTo (Removes env inv dev newState newSignature w) w w' := by
  by_cases hopens : env.opens dev.resFile = true
  swap
  · -- The reservation file cannot be opened.
    refine ⟨s!"Error - Failed to open lock file: {dev.resFile}", w,
      by simp [changeCurrentReservation, Surroundings.answer, hopens, fail], ?_⟩
    have hremoves : ¬ Removes env inv dev newState newSignature w := by
      rintro ⟨-, ⟨ho, -⟩ | ⟨⟨ho, -⟩, -⟩⟩ <;> exact hopens ho
    exact ⟨fun hr => absurd hr hremoves, fun _ => rfl, rfl⟩
  by_cases hfree : env.Free w dev.resFile
  swap
  · -- It is held by another process.
    have hrun : (changeCurrentReservation host inv dev newState newSignature).run env.answer w =
        (.error (.error s!"Error - Failed to acquire lock file: {dev.resFile}"),
          if env.stale.toNat ≠ FpgaState.program.code ∧ newState = .program
            then { w with progLock := none } else w) := by
      simp only [changeCurrentReservation, bind_perform, run_call, Surroundings.answer, hopens,
        if_true, run_bind, run_lockReservation_held hfree, andThen_error]
    refine ⟨_, _, hrun, ?_⟩
    by_cases hr : env.stale.toNat ≠ FpgaState.program.code ∧ newState = .program
    · rw [if_pos hr]
      have hremoves : Removes env inv dev newState newSignature w :=
        ⟨hr.2, .inl ⟨hopens, hfree, hr.1⟩⟩
      exact ⟨fun _ => rfl, fun hn => absurd hremoves hn, rfl⟩
    · rw [if_neg hr]
      have hremoves : ¬ Removes env inv dev newState newSignature w := by
        rintro ⟨hp, ⟨-, -, hs⟩ | ⟨⟨-, hf⟩, -⟩⟩
        · exact hr ⟨hs, hp⟩
        · exact hfree hf
      exact ⟨fun h => absurd h hremoves, fun _ => rfl, rfl⟩
  -- It is read, and the request is refused.
  have hgets : Gets env dev w := ⟨hopens, hfree⟩
  have hrefused : (∃ message, judge host.pwName inv.uid inv.force newState newSignature
      (old dev w) = .refused true message) ↔ _ := judge_refused_true
  rw [run_change_gets hgets]
  rcases hjudge : judge host.pwName inv.uid inv.force newState newSignature (old dev w) with
    ⟨removesLock, message⟩ | _ | ⟨s, sig, removes⟩
  · refine ⟨message, _, run_enact_refused removesLock message, ?_⟩
    by_cases hr : removesLock = true
    · rw [if_pos hr]
      rw [hr] at hjudge
      have hremoves : Removes env inv dev newState newSignature w := by
        obtain ⟨hp, hn, hold⟩ := hrefused.mp ⟨message, hjudge⟩
        exact ⟨hp, .inr ⟨hgets, hn, hold⟩⟩
      exact ⟨fun _ => rfl, fun hn => absurd hremoves hn, rfl⟩
    · rw [if_neg hr]
      have hremoves : ¬ Removes env inv dev newState newSignature w := by
        rintro ⟨hp, ⟨-, hf, -⟩ | ⟨-, hn, hold⟩⟩
        · exact hf hfree
        · obtain ⟨message', hm⟩ := hrefused.mpr ⟨hp, hn, hold⟩
          rw [hjudge] at hm
          exact hr (Verdict.refused.inj hm).1
      exact ⟨fun h => absurd h hremoves, fun _ => rfl, rfl⟩
  · exact absurd ⟨hgets, hjudge⟩ h'
  · exact absurd ⟨hgets, s, sig, removes, hjudge⟩ h

/-- A refusal that removes the lock file is no update. -/
theorem not_removes_of_update (h : Gets env dev w)
    (hjudge : judge host.pwName inv.uid inv.force newState newSignature (old dev w) =
      .update s sig removes) :
    ¬ Removes env inv dev newState newSignature w := by
  rintro ⟨hp, ⟨-, hfree, -⟩ | ⟨-, hn, hold⟩⟩
  · exact hfree h.2
  · obtain ⟨message, hm⟩ : ∃ message, judge host.pwName inv.uid inv.force newState newSignature
        (old dev w) = .refused true message := judge_refused_true.mpr ⟨hp, hn, hold⟩
    rw [hjudge] at hm
    cases hm

/-- The request creates the lock file: it is to program, and there is none. -/
def Creates (r : DeviceRequest) (w : Files) : Prop := r = .program ∧ w.progLock = none

/-- A request for `newState` that fails keeps the two files. -/
structure ChangeKeeps (host : Host) (env : Surroundings) (inv : Invocation) (dev : Device)
    (creates : Prop) (newState : FpgaState) (newSignature : Option Text) (w : Files) : Prop where
  /-- A lock file that it creates it removes again. -/
  created : creates → Removes env inv dev newState newSignature w
  /-- It removes no other. -/
  removed : Removes env inv dev newState newSignature w → w.progLock = none
  /-- If it fails behind the update, then the update was none. -/
  written : Gets env dev w → ∀ s sig removes,
    judge host.pwName inv.uid inv.force newState newSignature (old dev w) =
      .update s sig removes →
    (removes = true → w.progLock = none) ∧
      printReservation inv.uid s sig = w.res dev.resFile

/-- The request gets a board of the class `cls`: those before it in the configuration are not
available, and it is. -/
def Reserves (host : Host) (env : Surroundings) (inv : Invocation) (cls : String) (w : Files) :
    List Device → Prop
  | [] => False
  | dev :: devs =>
    if dev.cls = cls then
      Gets env dev w ∧
        match judge host.pwName inv.uid inv.force .reserved none (old dev w) with
        | .update _ _ _ => True
        | .unavailable => Reserves host env inv cls w devs
        | .refused _ _ => False
    else Reserves host env inv cls w devs

/-- An invocation that fails keeps the two files. -/
def KeepsFiles (host : Host) (env : Surroundings) (inv : Invocation) (w : Files) : Job → Prop
  | .reserve devs cls => ∀ c ∈ cls, ¬ Reserves host env inv c w devs
  | .status _ => True
  | .device dev r => ∀ c ∈ r.change,
    ChangeKeeps host env inv dev (Creates r w) c.1 c.2 w

/-! ## Exactly when -/

/-- How a request that changes a reservation ends with an error. -/
theorem change_error {rest : Bool → Ctrl (List Text)} (hrest : Trailing rest)
    (hstate : newState ≠ .reserved) {e : Stop}
    (herror : (changeCurrentReservation host inv dev newState newSignature >>= rest).run
      env.answer w = (.error e, w')) :
    ((¬ ∃ s sig removes, Gets env dev w ∧
        judge host.pwName inv.uid inv.force newState newSignature (old dev w) =
          .update s sig removes) ∧ FailsTo (Removes env inv dev newState newSignature w) w w') ∨
      ∃ s sig removes, Gets env dev w ∧
        judge host.pwName inv.uid inv.force newState newSignature (old dev w) =
          .update s sig removes ∧
        w'.progLock = (if removes then none else w.progLock) ∧
        w'.res = Function.update w.res dev.resFile (printReservation inv.uid s sig) := by
  rw [run_bind] at herror
  by_cases hupd : Gets env dev w ∧ ∃ s sig removes,
      judge host.pwName inv.uid inv.force newState newSignature (old dev w) =
        .update s sig removes
  · obtain ⟨hgets, s, sig, removes, hjudge⟩ := hupd
    obtain ⟨w₁, hrun, hlock, hres⟩ := run_change_update hgets hjudge
    have hsame := same_of_makes env (hrest true) w₁
    rw [hrun, andThen_ok] at herror
    rw [herror] at hsame
    exact .inr ⟨s, sig, removes, hgets, hjudge, hsame.1.trans hlock, hsame.2.trans hres⟩
  · have havail : ¬ (Gets env dev w ∧
        judge host.pwName inv.uid inv.force newState newSignature (old dev w) =
          .unavailable) := fun h => hstate (judge_unavailable h.2).1
    obtain ⟨message, w₁, hrun, hfails⟩ := run_change_fails hupd havail
    rw [hrun, andThen_error] at herror
    obtain rfl : w₁ = w' := congrArg Prod.snd herror
    exact .inl ⟨fun ⟨s, sig, removes, hg, hj⟩ => hupd ⟨hg, s, sig, removes, hj⟩, hfails⟩

variable (env inv dev) in
/-- The files that a request finds once it is past the programming lock. -/
theorem run_acquireProgLock (n : ℕ) (w : Files) :
    ((acquireProgLock inv dev n).run env.answer w).1 = .error .waiting ∨
      ∃ w₁, (acquireProgLock inv dev n).run env.answer w = (.ok (), w₁) ∧
        w₁.res = w.res ∧ w₁.resLock = w.resLock ∧
        ((w.progLock = none ∧ w₁.progLock ≠ none) ∨
          (w.progLock ≠ none ∧ w₁.progLock = w.progLock)) := by
  induction n with
  | zero => exact .inl rfl
  | succ n ih =>
    by_cases hlock : w.progLock = none
    · refine .inr ⟨{ w with progLock := some ⟨env.pid, showInt dev.id ++ ['\n']⟩ }, ?_, rfl, rfl,
        .inl ⟨hlock, by simp⟩⟩
      simp [acquireProgLock, Surroundings.answer, hlock]
    have hsome : w.progLock.isNone = false :=
      Option.isNone_eq_false_iff.mpr (Option.isSome_iff_ne_none.mpr hlock)
    by_cases hgo : namesDevice (w.progLock.map LockFile.text) dev.id = true ∨ inv.force = true
    · refine .inr ⟨w, ?_, rfl, rfl, .inr ⟨hlock, rfl⟩⟩
      simp [acquireProgLock, Surroundings.answer, hsome, hgo]
    · have hloop : (acquireProgLock inv dev (n + 1)).run env.answer w =
          (acquireProgLock inv dev n).run env.answer w := by
        simp [acquireProgLock, Surroundings.answer, hsome, hgo]
      rwa [hloop]

/-- The condition on a request that has the files `w₁` behind the programming lock. -/
theorem change_error_same (creates : Prop) {rest : Bool → Ctrl (List Text)}
    (hrest : Trailing rest) (hstate : newState ≠ .reserved) {e : Stop}
    {w₁ : Files} (hres : w₁.res = w.res) (hresLock : w₁.resLock = w.resLock)
    (hlock : (creates ∧ newState = .program ∧ w.progLock = none ∧ w₁.progLock ≠ none) ∨
      (¬ creates ∧ w₁.progLock = w.progLock))
    (hrun : (changeCurrentReservation host inv dev newState newSignature >>= rest).run
      env.answer w₁ = (.error e, w')) :
    Same w w' ↔ ChangeKeeps host env inv dev creates newState newSignature w := by
  have hold : old dev w₁ = old dev w := by rw [old, old, hres]
  have hgets : Gets env dev w₁ ↔ Gets env dev w := by
    rw [Gets, Gets, Surroundings.Free, Surroundings.Free, hresLock]
  have hremoves : Removes env inv dev newState newSignature w₁ ↔
      Removes env inv dev newState newSignature w := by
    rw [Removes, Removes, hold, hgets, Surroundings.Free, Surroundings.Free, hresLock]
  rcases change_error hrest hstate hrun with ⟨hupd, hfails⟩ | ⟨s, sig, removes, hg, hj, hl, hr⟩
  · -- The reservation was not touched: the lock file decides.
    rw [hold, hgets] at hupd
    rw [hremoves] at hfails
    obtain ⟨hrem, hkeep, hres'⟩ := hfails
    have hwritten : Gets env dev w → ∀ s sig removes,
        judge host.pwName inv.uid inv.force newState newSignature (old dev w) =
          .update s sig removes →
        (removes = true → w.progLock = none) ∧
          printReservation inv.uid s sig = w.res dev.resFile :=
      fun hg s sig removes hj => absurd ⟨s, sig, removes, hg, hj⟩ hupd
    constructor
    · rintro ⟨hsame, -⟩
      refine ⟨fun hc => ?_, fun hr => hsame.symm.trans (hrem hr), hwritten⟩
      by_contra hn
      rcases hlock with ⟨-, -, hnone, hsome⟩ | ⟨hnot, -⟩
      · exact hsome ((hkeep hn).symm.trans (hsame.trans hnone))
      · exact hnot hc
    · intro hk
      refine ⟨?_, hres'.trans hres⟩
      by_cases hr : Removes env inv dev newState newSignature w
      · rw [hrem hr, hk.removed hr]
      · rcases hlock with ⟨hc, -⟩ | ⟨-, hl⟩
        · exact absurd (hk.created hc) hr
        · rw [hkeep hr, hl]
  · -- It was written: nothing may have changed by that, and no lock file been created before.
    rw [hgets] at hg
    rw [hold] at hj
    rw [hres] at hr
    have hnot := not_removes_of_update hg hj
    obtain ⟨hs, -, hrm, -⟩ := judge_update hj
    constructor
    · rintro ⟨hsame, hsame'⟩
      refine ⟨fun hc => ?_, fun h => absurd h hnot, fun _ s' sig' removes' hj' => ?_⟩
      · -- A lock file that was created is still there.
        exfalso
        rcases hlock with ⟨-, hp, hnone, hsome⟩ | ⟨hn, -⟩
        · rw [hs, hp] at hrm
          have hfalse : removes = false := by simpa [stateToWrite] using hrm
          rw [hfalse] at hl
          exact hsome (by simpa [hsame, hnone] using hl.symm)
        · exact hn hc
      · rw [hj] at hj'
        obtain ⟨rfl, rfl, rfl⟩ := Verdict.update.inj hj'
        refine ⟨fun ht => ?_, ?_⟩
        · rw [ht] at hl
          exact hsame.symm.trans hl
        · rw [hsame'] at hr
          exact (Function.update_eq_self_iff.mp hr.symm)
    · intro hk
      obtain ⟨hk₁, hk₂⟩ := hk.written hg s sig removes hj
      rcases hlock with ⟨hc, -⟩ | ⟨-, hlock⟩
      · exact absurd (hk.created hc) hnot
      refine ⟨?_, ?_⟩
      · by_cases ht : removes = true
        · rw [hl, if_pos ht, hk₁ ht]
        · rw [hl, if_neg ht, hlock]
      · rw [hr, hk₂, Function.update_eq_self]

variable (env) in
/-- A query leaves the files as they are. -/
theorem same_of_makes_query {α : Type} {x : Ctrl α} (h : x.Makes Call.IsQuery) (w : Files) :
    Same w (x.run env.answer w).2 := by
  refine run_of_makes (R := Same) (fun _ => ⟨rfl, rfl⟩) (fun _ _ _ => Same.trans) ?_ h w
  intro w c hc
  cases c <;> first | exact hc.elim | exact ⟨rfl, rfl⟩

/-- The requests for one device. -/
theorem serveDevice_error {r : DeviceRequest} {message : String}
    (hrun : (serveDevice host inv dev r).run env.answer w = (.error (.error message), w')) :
    Same w w' ↔ ∀ c ∈ r.change, ChangeKeeps host env inv dev (Creates r w) c.1 c.2 w := by
  rcases hchange : r.change with _ | ⟨newState, newSignature⟩
  · have hsame := same_of_makes_query env (makes_serveDevice host inv dev hchange) w
    rw [hrun] at hsame
    simpa using hsame
  have hall : (∀ c ∈ some (newState, newSignature),
      ChangeKeeps host env inv dev (Creates r w) c.1 c.2 w) ↔
        ChangeKeeps host env inv dev (Creates r w) newState newSignature w := by
    simp
  rw [hall]
  by_cases hr : r = .program
  · subst hr
    cases hchange
    obtain ⟨rest, hrest, hserve⟩ := serveDevice_program host inv dev
    rw [hserve, run_bind] at hrun
    rcases run_acquireProgLock env inv dev inv.polls w with
      hwait | ⟨w₁, hgot, hres, hresLock, hlock⟩
    · -- It is still waiting.
      rcases hacq : (acquireProgLock inv dev inv.polls).run env.answer w with ⟨x, w₁⟩
      rw [hacq] at hrun hwait
      obtain rfl : x = .error .waiting := hwait
      cases hrun
    rw [hgot, andThen_ok] at hrun
    refine change_error_same (Creates .program w) hrest (by decide) hres hresLock ?_ hrun
    rcases hlock with ⟨hnone, hsome⟩ | ⟨hsome, hl⟩
    · exact .inl ⟨⟨rfl, hnone⟩, rfl, hnone, hsome⟩
    · exact .inr ⟨fun hc => hsome hc.2, hl⟩
  · obtain ⟨hstate, rest, hrest, hserve⟩ := serveDevice_of_change host inv dev hr hchange
    rw [hserve] at hrun
    exact change_error_same (Creates r w) hrest hstate rfl rfl (.inr ⟨fun hc => hr hc.1, rfl⟩) hrun

/-- A board that is reserved is not written as it was. -/
theorem print_ne_of_reserve
    (hjudge : judge host.pwName inv.uid inv.force .reserved none (old dev w) =
      .update s sig removes) :
    printReservation inv.uid s sig ≠ w.res dev.resFile := by
  intro heq
  obtain ⟨rfl, -, -, hmay⟩ := judge_update hjudge
  have hold : old dev w = scanReservation (printReservation inv.uid .reserved sig) := by
    rw [old, ← heq]
    rfl
  rcases hmay.reserved rfl with hfree | ⟨-, hne⟩
  · rw [hold, oldState_print] at hfree
    cases hfree
  · rw [hold, owner_print] at hne
    exact hne rfl

variable (host env inv) in
/-- How the loop of `reserve` ends. -/
theorem run_reserveFrom (cls : String) (devs : List Device) {w₀ : Files} (hsame : Same w w₀)
    (hfree : ∀ f, env.Free w₀ f ↔ env.Free w f) :
    (Reserves host env inv cls w devs ∧ ∃ dev w',
        (reserveFrom host inv cls devs).run env.answer w₀ = (.ok dev, w') ∧ w'.res ≠ w.res) ∨
      (¬ Reserves host env inv cls w devs ∧ ∃ message w',
        (reserveFrom host inv cls devs).run env.answer w₀ = (.error (.error message), w') ∧
          Same w w') := by
  induction devs generalizing w₀ with
  | nil => exact .inr ⟨id, _, w₀, rfl, hsame⟩
  | cons dev devs ih =>
    by_cases hcls : dev.cls = cls
    swap
    · simpa [Reserves, reserveFrom, hcls] using ih hsame hfree
    have hold : old dev w₀ = old dev w := by rw [old, old, hsame.2]
    have hgets : Gets env dev w₀ ↔ Gets env dev w := by rw [Gets, Gets, hfree]
    have hloop : (reserveFrom host inv cls (dev :: devs)).run env.answer w₀ =
        andThen (fun got => if got then pure dev else reserveFrom host inv cls devs) env.answer
          ((changeCurrentReservation host inv dev .reserved none).run env.answer w₀) := by
      rw [reserveFrom, if_pos hcls, run_bind]
    rw [hloop, Reserves, if_pos hcls]
    by_cases hupd : Gets env dev w₀ ∧ ∃ s sig removes,
        judge host.pwName inv.uid inv.force .reserved none (old dev w₀) = .update s sig removes
    · obtain ⟨hg, s, sig, removes, hjudge⟩ := hupd
      obtain ⟨w₁, hrun, -, hres⟩ := run_change_update hg hjudge
      refine .inl ⟨⟨hgets.mp hg, by rw [← hold, hjudge]; trivial⟩, dev, w₁, by rw [hrun]; rfl, ?_⟩
      rw [hres, ← hsame.2]
      intro hw
      exact print_ne_of_reserve hjudge (Function.update_eq_self_iff.mp hw)
    by_cases havail : Gets env dev w₀ ∧
        judge host.pwName inv.uid inv.force .reserved none (old dev w₀) = .unavailable
    · obtain ⟨w₁, hrun, hsame₁, hfree₁⟩ := run_change_unavailable havail.1 havail.2
      have hrest := ih (hsame.trans hsame₁) fun f => (hfree₁ f).trans (hfree f)
      rw [hrun, andThen_ok, if_neg Bool.false_ne_true, ← hold, havail.2]
      simpa [hgets.mp havail.1] using hrest
    · obtain ⟨message, w₁, hrun, hfails⟩ := run_change_fails hupd havail
      have hremoves : ¬ Removes env inv dev .reserved none w₀ := fun h => by cases h.1
      refine .inr ⟨?_, message, w₁, by rw [hrun]; rfl,
        hsame.trans ⟨hfails.2.1 hremoves, hfails.2.2⟩⟩
      rintro ⟨hg, hjudge⟩
      rw [← hold] at hjudge
      rw [← hgets] at hg
      rcases hj : judge host.pwName inv.uid inv.force .reserved none (old dev w₀) with
        ⟨removesLock, m⟩ | _ | ⟨s, sig, removes⟩
      · rw [hj] at hjudge
        exact hjudge
      · exact havail ⟨hg, hj⟩
      · exact hupd ⟨hg, s, sig, removes, hj⟩

/-- A request to reserve. -/
theorem reserve_error {devs : List Device} {cls : Option String} {e : Stop}
    (hrun : (reserve host inv devs cls).run env.answer w = (.error e, w')) :
    Same w w' ↔ ∀ c ∈ cls, ¬ Reserves host env inv c w devs := by
  rcases cls with _ | cls
  · obtain rfl : w = w' := congrArg Prod.snd hrun
    simp [Same]
  rw [reserve, run_bind] at hrun
  have hself : Same w w := ⟨rfl, rfl⟩
  rcases run_reserveFrom host env inv cls devs hself (fun _ => Iff.rfl) with
    ⟨hres, dev, w₁, hgot, hne⟩ | ⟨hres, message, w₁, herr, hsame⟩
  · rw [hgot, andThen_ok] at hrun
    have hmakes : (setFpgaDeviceAccess inv dev false >>= fun _ =>
        pure [showInt dev.id] : Ctrl (List Text)).Makes Call.IsDevice :=
      (makes_setFpgaDeviceAccess inv dev false).bind fun _ => trivial
    have hrest := same_of_makes env hmakes w₁
    rw [hrun] at hrest
    constructor
    · intro hsame
      exact absurd (hrest.2.symm.trans hsame.2) hne
    · intro hn
      exact absurd hres (hn cls rfl)
  · rw [herr, andThen_error] at hrun
    obtain rfl : w₁ = w' := congrArg Prod.snd hrun
    constructor
    · rintro - c ⟨⟩
      exact hres
    · intro _
      exact hsame

/-- **Failure atomicity.** An invocation that ends with an error leaves the programming lock file
and the reservation files as they were exactly when its request meets `KeepsFiles`: a lock file
that it created is removed on its way out and no other is, and what it has written, if it has
come so far, changed nothing. -/
theorem failing_invocation_keeps_files {message : String}
    (h : (invoke host env inv w).1 = .error (.error message)) :
    Same w (invoke host env inv w).2 ↔
      ∀ job, prepare host inv = .ok job → KeepsFiles host env inv w job := by
  rw [invoke, invocation, run_closing] at h ⊢
  rcases hrun : (main host inv).run env.answer w with ⟨x, w'⟩
  rw [hrun] at h
  obtain rfl : x = .error (.error message) := h
  have hexit : Same w (env.answer w' .exit).2 ↔ Same w w' := Iff.rfl
  rw [hexit]
  rw [main] at hrun
  rcases hprepare : prepare host inv with message' | job
  · rw [hprepare] at hrun
    obtain rfl : w = w' := congrArg Prod.snd hrun
    simp [Same]
  rw [hprepare] at hrun
  have hjob : (∀ job', (Except.ok job : Except String Job) = .ok job' →
      KeepsFiles host env inv w job') ↔ KeepsFiles host env inv w job :=
    ⟨fun h => h job rfl, by rintro h _ ⟨⟩; exact h⟩
  rw [hjob]
  cases job with
  | reserve devs cls => exact reserve_error hrun
  | status devs =>
    have hsame := same_of_makes_query env (makes_queryStatus host devs) w
    rw [show (queryStatus host devs).run env.answer w = _ from hrun] at hsame
    simpa [KeepsFiles] using hsame
  | device dev r => exact serveDevice_error hrun

/-! ## A lock file that is left behind -/

/-- A host with one board, which has neither a script nor a device file. -/
def oneBoard : Host where
  cfg := some [{
    name := "board"
    cls := some "XUPV5"
    hasControlScript := none
    dev := none
    busId := none
    progCableId := none
    location := none
    kernelModuleName := none
    kernelModulePath := none }]
  pwName := fun _ => none

/-- Surroundings in which every call turns out well. -/
def calm : Surroundings where
  pid := 0
  opens := fun _ => true
  stale := 0
  script := fun _ _ => .exited 0
  scriptDev := id
  statFails := fun _ => false
  chowns := fun _ => true
  chmods := fun _ => true

/-- No lock file, no reservation and no device file. -/
def noFiles : Files where
  progLock := none
  res := fun _ => []
  resLock := fun _ => none
  dev := fun _ => none

/-- A user's request for the only board. -/
def request (r : DeviceRequest) : Invocation where
  uid := 1000
  force := false
  request := .device r
  deviceId := none
  polls := 1

/-- The condition at a request to activate a board that is free, which changes nothing. -/
theorem failing_invocation_keeps_files_activate :
    Same noFiles (invoke oneBoard calm (request .activate) noFiles).2 ↔
      ∀ job, prepare oneBoard (request .activate) = .ok job →
        KeepsFiles oneBoard calm (request .activate) noFiles job :=
  failing_invocation_keeps_files rfl

/-- A user asks to program a board that nobody has reserved: that is refused, and the lock file
that the request has created stays. -/
theorem program_free_board_leaves_lock :
    ¬ ∀ (host : Host) (env : Surroundings) (inv : Invocation) (w : Files) (message : String),
      (invoke host env inv w).1 = .error (.error message) → Same w (invoke host env inv w).2 := by
  intro h
  have hsame := h oneBoard calm (request .program) noFiles "Error - Reservation required" rfl
  have hlock : (invoke oneBoard calm (request .program) noFiles).2.progLock =
      some ⟨0, ['0', '\n']⟩ := rfl
  rw [hsame.1] at hlock
  cases hlock

end LeapFpgaCtrl

end LeapPlatforms
