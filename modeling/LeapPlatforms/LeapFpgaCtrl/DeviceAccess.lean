import LeapPlatforms.LeapFpgaCtrl.AccessDiscipline

/-!
# Access to the device files

What matters is that the rule holds again when the invocation exits, however it exits. A
request to program a board, to drop it or to reset it takes the access away before anything else
that can fail. A request to deactivate it runs the helper script first, and when the script fails
the access stays (`deactivate_leaves_access`).

The rule holds in the runs in which that does not happen, nor a failure to take the access away;
in which scripts give access to nobody but the user of an active board; and for configurations in
which the devices with one reservation file are those with one device file. It holds of every board
that no invocation has hold of, at every time.

## Main definitions

* `CarePhase.Done`, `Changed`, `Closing` — where a function of the source leaves the access

## Main results

* `care_change`, `care_setFpgaDeviceAccess_true`, `care_setFpgaDeviceAccess_false`
* `keeps_care` — no invocation exits in between
* `access_follows_reservation`
* `deactivate_leaves_access`
-/

namespace LeapPlatforms

namespace LeapFpgaCtrl

open Scan Prog

variable {devs : List Device} {f f' path path' : String} {w w' : Files}

/-! ## The discipline is kept -/

variable {host : Host} {inv : Invocation} {dev : Device} {newState : FpgaState}
  {newSignature : Option Text} {φ : CarePhase}

/-- No access has still to be taken away. -/
def CarePhase.Done (φ : CarePhase) : Prop := ∀ f, φ.stage ≠ .shutting f

/-- An invocation may end where no access has still to be taken away. -/
abbrev WhereDone {α : Type} : CarePhase → α → Prop := fun φ _ => φ.Done

theorem CarePhase.done_of_eq {stage : Stage} (h : φ.stage = stage)
    (hstage : ∀ f, stage ≠ .shutting f) : φ.Done := by
  rw [CarePhase.Done, h]
  exact hstage

theorem care_removeLockIf {Q : CarePhase → Unit → Prop} (b : Bool) (hQ : Q φ ()) :
    (care devs inv).Keeps Q (WhereDone (α := Stop)) φ (removeLockIf b) := by
  rcases b with _ | _
  · exact hQ
  · exact ⟨trivial, fun _ => hQ⟩

theorem care_lockReservation {Q : CarePhase → Unit → Prop} (hφ : φ.stage = .unwritten)
    (hQ : Q φ ()) (n : ℕ) :
    (care devs inv).Keeps Q (WhereDone (α := Stop)) φ (lockReservation dev newState n) := by
  have hdone : φ.Done := CarePhase.done_of_eq hφ (by simp)
  induction n with
  | zero =>
    refine ⟨hφ, ?_⟩
    rintro (_ | _)
    · refine ⟨trivial, fun (r : BitVec 32) => ?_⟩
      change (care devs inv).Keeps Q WhereDone φ (removeLockIf _ >>= fun _ => fail _)
      exact (Discipline.keeps_bind _ _ _).mpr (care_removeLockIf _ hdone)
    · exact hQ
  | succ n ih =>
    refine ⟨hφ, ?_⟩
    rintro (_ | _)
    · exact ih
    · exact hQ

/-- What is left to do once the reservation of `dev` is written. A signature is set on a board
that is being programmed, to which there is no access. -/
def Changed (dev : Device) (newState : FpgaState) (newSignature : Option Text) (stage : Stage) :
    Prop :=
  if newState = .active then stage = .opening dev.resFile
  else stage = .settled dev.resFile ∨
    stage = .shutting dev.resFile ∧ (newState = .program → newSignature = none) ∧
      dev.fpgaDev ≠ none

theorem changed_afterWrite (hcons : Consistent devs) (hdev : dev ∈ devs) {t sig : Text}
    {s : FpgaState} {removes : Bool}
    (hjudge : judge host.pwName inv.uid inv.force newState newSignature (scanReservation t) =
      .update s sig removes) :
    Changed dev newState newSignature
      (.afterWrite devs (some t) dev.resFile (printReservation inv.uid s sig)) := by
  obtain ⟨rfl, hsig, -, -⟩ := judge_update hjudge
  have hwritten : stateOf (printReservation inv.uid (stateToWrite newState) sig) = .active ↔
      newState = .active := by
    rw [stateOf, oldState_print, stateToWrite_eq_active]
  rw [Changed, Stage.afterWrite]
  by_cases hactive : newState = .active
  · rw [if_pos hactive, if_pos (hwritten.mpr hactive)]
  rw [if_neg hactive, if_neg (fun h => hactive (hwritten.mp h))]
  by_cases hopen : (∃ t₀ ∈ some t, stateOf t₀ = .active) ∧
      ∃ d ∈ devs, d.resFile = dev.resFile ∧ d.fpgaDev.isSome
  swap
  · exact .inl (if_neg hopen)
  refine .inr ⟨if_pos hopen, fun hp => ?_, ?_⟩
  · by_contra hn
    obtain ⟨signature, rfl⟩ := Option.ne_none_iff_exists'.mp hn
    obtain ⟨⟨t₀, ht₀, hold⟩, -⟩ := hopen
    obtain rfl : t = t₀ := Option.some.inj ht₀
    simp [signatureToWrite, hp, show (scanReservation t).oldState = .active from hold] at hsig
  · obtain ⟨-, d, hd, hres, hsome⟩ := hopen
    rw [← hcons.aliases d hd dev hdev hres]
    exact Option.isSome_iff_ne_none.mp hsome

/-- **A change of the reservation** leaves the access to be dealt with, and a request that fails
before it leaves nothing. -/
theorem care_change {Q : CarePhase → Bool → Prop} (hcons : Consistent devs) (hdev : dev ∈ devs)
    (hφ : φ.stage = .unwritten)
    (htrue : ∀ φ' : CarePhase, Changed dev newState newSignature φ'.stage → Q φ' true)
    (hfalse : newState = .reserved → ∀ φ' : CarePhase, φ'.stage = .unwritten → Q φ' false) :
    (care devs inv).Keeps Q (WhereDone (α := Stop)) φ
      (changeCurrentReservation host inv dev newState newSignature) := by
  have hdone : φ.Done := CarePhase.done_of_eq hφ (by simp)
  refine ⟨trivial, ?_⟩
  rintro (_ | _)
  · exact hdone
  change (care devs inv).Keeps Q WhereDone φ (lockReservation dev newState 20 >>= fun _ => _)
  refine (Discipline.keeps_bind _ _ _).mpr (care_lockReservation hφ ?_ 20)
  refine ⟨hφ, fun (t : Text) => ?_⟩
  change (care devs inv).Keeps Q WhereDone _ (enact dev inv.uid _)
  rcases hjudge : judge host.pwName inv.uid inv.force newState newSignature
    (scanReservation t) with ⟨removes, message⟩ | _ | ⟨s, sig, removes⟩
  · exact (Discipline.keeps_bind _ _ _).mpr (care_removeLockIf removes hdone)
  · exact ⟨hφ, fun _ => hfalse (judge_unavailable hjudge).1 _ hφ⟩
  · refine ⟨hφ, fun _ => ?_⟩
    change (care devs inv).Keeps Q WhereDone _ (removeLockIf removes >>= fun _ => pure true)
    refine (Discipline.keeps_bind _ _ _).mpr (care_removeLockIf removes ?_)
    exact htrue _ (changed_afterWrite hcons hdev hjudge)

/-- To change the owner of a device file and then its permissions. -/
theorem care_protect {path message message' : String} {uid : Uid} {prot : BitVec 9}
    (hallows : (care devs inv).Allows φ (.chown path uid)) (hprot : prot &&& 0o066 = 0)
    (hfails : ∀ f, φ.stage.afterChown false ≠ .shutting f) {f : String}
    (hguards : Guards devs f path)
    (hstage : φ.stage.afterChown true = .opened f ∨ φ.stage.afterChown true = .shut f) :
    (care devs inv).Keeps WhereDone (WhereDone (α := Stop)) φ (do
      let chowned : Bool ← sys (.chown path uid)
      if chowned then do
        let chmoded : Bool ← sys (.chmod path prot)
        if chmoded then pure () else fail message
      else fail message') := by
  have hdone : ∀ f', φ.stage.afterChown true ≠ .shutting f' := by
    rcases hstage with hstage | hstage <;> simp [hstage]
  refine ⟨hallows, ?_⟩
  rintro (_ | _)
  · exact hfails
  · refine ⟨care_chmod hprot hguards hstage, ?_⟩
    rintro (_ | _)
    · exact hdone
    · exact hdone

/-- To give access to an active board. -/
theorem care_setFpgaDeviceAccess_true (hdev : dev ∈ devs) (hφ : φ.stage = .opening dev.resFile) :
    (care devs inv).Keeps WhereDone (WhereDone (α := Stop)) φ
      (setFpgaDeviceAccess inv dev true) := by
  rw [setFpgaDeviceAccess]
  rcases hpath : dev.fpgaDev with _ | path
  · exact CarePhase.done_of_eq hφ (by simp)
  have hguards : Guards devs dev.resFile path := ⟨dev, hdev, rfl, hpath⟩
  have hstat : ∀ statb, φ.stage.afterStat statb = .opening dev.resFile := by
    intro statb
    rw [hφ]
    cases statb <;> rfl
  have hdone : ∀ statb f, φ.stage.afterStat statb ≠ .shutting f := by simp [hstat]
  refine ⟨by simp [care, hφ], ?_⟩
  rintro (_ | _ | file)
  · exact hdone _
  · exact hdone _
  refine Discipline.keeps_ite (fun _ => ?_) fun _ => hdone _
  have hchown : ∀ b, (φ.stage.afterStat (.found file)).afterChown b =
      if b then .opened dev.resFile else .opening dev.resFile := by
    intro b
    rw [hstat]
    rfl
  refine care_protect ?_ (by decide) ?_ hguards (.inl (hchown true))
  · simp only [care, hstat]
    exact ⟨rfl, hguards⟩
  · simp [care, hchown]

/-- To take the access away. -/
theorem care_setFpgaDeviceAccess_false (hdev : dev ∈ devs) (hact : inv.activates = false)
    (hφ : φ.stage = .settled dev.resFile ∨
      φ.stage = .shutting dev.resFile ∧ dev.fpgaDev ≠ none) :
    (care devs inv).Keeps WhereDone (WhereDone (α := Stop)) φ
      (setFpgaDeviceAccess inv dev false) := by
  rw [setFpgaDeviceAccess]
  rcases hpath : dev.fpgaDev with _ | path
  · rcases hφ with hφ | ⟨-, hsome⟩
    · exact CarePhase.done_of_eq hφ (by simp)
    · exact absurd hpath hsome
  have hguards : Guards devs dev.resFile path := ⟨dev, hdev, rfl, hpath⟩
  refine ⟨?_, ?_⟩
  · intro f hf
    rcases hφ with hφ | ⟨hφ, -⟩ <;> rw [hφ] at hf <;> cases hf
    exact ⟨hact, hguards⟩
  -- The file may be root's already, and is otherwise made root's.
  have hstat : ∀ statb, φ.stage.afterStat statb = .settled dev.resFile ∨
      φ.stage.afterStat statb = .shutting dev.resFile ∧ ∃ file, statb = .found file ∧
        file.owner ≠ 0 := by
    intro statb
    rcases hφ with hφ | ⟨hφ, -⟩ <;> rw [hφ]
    · cases statb <;> exact .inl rfl
    · rcases statb with _ | _ | file
      · exact .inl rfl
      · exact .inl rfl
      · by_cases howner : file.owner = 0
        · exact .inl (if_pos howner)
        · exact .inr ⟨if_neg howner, file, rfl, howner⟩
  rintro (_ | _ | file)
  · rcases hstat .missing with h | ⟨-, file, h, -⟩
    · exact CarePhase.done_of_eq h (by simp)
    · cases h
  · rcases hstat .failed with h | ⟨-, file, h, -⟩
    · exact CarePhase.done_of_eq h (by simp)
    · cases h
  refine Discipline.keeps_ite (fun _ => ?_) fun hkept => ?_
  · have hchown : ∀ b, (φ.stage.afterStat (.found file)).afterChown b =
        if b then .shut dev.resFile else .settled dev.resFile := by
      intro b
      rcases hstat (.found file) with h | ⟨h, -⟩ <;> rw [h] <;> rfl
    refine care_protect ?_ (by decide) ?_ hguards (.inr (hchown true))
    · rcases hstat (.found file) with h | ⟨h, -⟩ <;> simp only [care, h] <;>
        exact ⟨rfl, hact, hguards⟩
    · simp [care, hchown]
  · rcases hstat (.found file) with h | ⟨-, file', hfile, howner⟩
    · exact CarePhase.done_of_eq h (by simp)
    · cases hfile
      exact absurd (.inr howner) hkept

/-- What is left to do behind a change to a state other than active. -/
def Closing (dev : Device) (φ : CarePhase) : Prop :=
  φ.stage = .settled dev.resFile ∨ φ.stage = .shutting dev.resFile ∧ dev.fpgaDev ≠ none

theorem Changed.closing (h : Changed dev newState newSignature φ.stage)
    (hstate : newState ≠ .active) : Closing dev φ := by
  rw [Changed, if_neg hstate] at h
  exact h.imp_right fun h => ⟨h.1, h.2.2⟩

/-- A script that is run when there is nothing to take away. -/
theorem care_invokeHelperScript {Q : CarePhase → Unit → Prop} (hφ : φ.Done) (state : FpgaState)
    (hQ : Q φ ()) :
    (care devs inv).Keeps Q (WhereDone (α := Stop)) φ (invokeHelperScript dev state) := by
  rw [invokeHelperScript]
  rcases scriptCmd state with _ | cmd
  · exact hQ
  refine Discipline.keeps_ite (fun _ => ?_) fun _ => hQ
  refine ⟨fun f hf => absurd hf (hφ f), fun (result : ScriptResult) => ?_⟩
  have hafter : φ.stage.afterScript result = φ.stage := by
    rcases hstage : φ.stage with _ | f | f | f | f | f
    case shutting => exact absurd hstage (hφ f)
    all_goals rfl
  have hnext : (care devs inv).next φ (.runScript dev.cls cmd dev.id dev.fpgaDev) result = φ := by
    change CarePhase.mk φ.known (φ.stage.afterScript result) = φ
    rw [hafter]
  rw [hnext]
  rcases result with _ | _ | _ | status
  · exact hφ
  · exact hφ
  · exact hφ
  · exact Discipline.keeps_ite (fun _ => hφ) fun _ => hQ

/-- The script that is run before a board is deactivated. When it fails the access is not taken
away any more. -/
theorem care_invokeHelperScript_inactive (hdev : dev ∈ devs) (hφ : Closing dev φ) :
    (care devs inv).Keeps (fun φ _ => Closing dev φ) (WhereDone (α := Stop)) φ
      (invokeHelperScript dev .inactive) := by
  rcases hφ with hφ | ⟨hφ, hsome⟩
  · exact care_invokeHelperScript (CarePhase.done_of_eq hφ (by simp)) _ (.inl hφ)
  obtain ⟨path, hpath⟩ := Option.ne_none_iff_exists'.mp hsome
  refine Discipline.keeps_ite (fun _ => ?_) fun _ => .inr ⟨hφ, hsome⟩
  refine ⟨fun f hf => ?_, fun (result : ScriptResult) => ?_⟩
  · rw [hφ] at hf
    cases hf
    exact ⟨rfl, path, hpath, dev, hdev, rfl, hpath⟩
  have hafter : φ.stage.afterScript result =
      if result = .exited 0 then .shutting dev.resFile else .settled dev.resFile := by
    rw [hφ]
    rfl
  have hfailed : result ≠ .exited 0 → CarePhase.Done ⟨φ.known, φ.stage.afterScript result⟩ :=
    fun h => CarePhase.done_of_eq (hafter.trans (if_neg h)) (by simp)
  rcases result with _ | _ | _ | status
  · exact hfailed (by simp)
  · exact hfailed (by simp)
  · exact hfailed (by simp)
  · refine Discipline.keeps_ite (fun hstatus => hfailed (by simpa using hstatus)) fun hstatus => ?_
    obtain rfl : status = 0 := not_not.mp hstatus
    exact .inr ⟨hafter, hsome⟩

theorem care_query {α : Type} {x : Ctrl α} (hx : x.Makes Call.IsQuery) (hφ : φ.Done) :
    (care devs inv).Keeps WhereDone (WhereDone (α := Stop)) φ x := by
  refine Discipline.keeps_of_makes hx ?_ (fun _ => hφ) fun _ => hφ
  intro c hc
  cases c <;> first | exact hc.elim | exact ⟨trivial, fun _ => rfl⟩

/-- Waiting for the programming lock has nothing to do with the access. -/
theorem care_acquireProgLock {Q : CarePhase → Unit → Prop} (hφ : φ.Done) (hQ : Q φ ()) (n : ℕ) :
    (care devs inv).Keeps Q (WhereDone (α := Stop)) φ (acquireProgLock inv dev n) := by
  induction n with
  | zero => exact hφ
  | succ n ih =>
    refine ⟨trivial, ?_⟩
    rintro (_ | _)
    · exact ⟨trivial, fun _ => Discipline.keeps_ite (fun _ => hQ) fun _ => ih⟩
    · exact ⟨trivial, fun _ => hQ⟩

/-- A request for one device. -/
theorem care_serveDevice (hcons : Consistent devs) (hdev : dev ∈ devs) {r : DeviceRequest}
    (hr : inv.request = .device r) (hφ : φ.stage = .unwritten) :
    (care devs inv).Keeps WhereDone (WhereDone (α := Stop)) φ (serveDevice host inv dev r) := by
  have hdone : φ.Done := CarePhase.done_of_eq hφ (by simp)
  have hopens : r ≠ .activate → inv.activates = false := by
    intro hne
    rw [Invocation.activates, hr]
    cases r <;> first | rfl | exact absurd rfl hne
  have hshuts : ∀ {φ' : CarePhase}, r ≠ .activate → Closing dev φ' →
      (care devs inv).Keeps WhereDone (WhereDone (α := Stop)) φ'
        (setFpgaDeviceAccess inv dev false) :=
    fun hne hφ' => care_setFpgaDeviceAccess_false hdev (hopens hne) hφ'
  cases r with
  | program =>
    refine (Discipline.keeps_bind _ _ _).mpr (care_acquireProgLock hdone ?_ _)
    refine (Discipline.keeps_bind _ _ _).mpr (care_change hcons hdev hφ ?_ (by rintro ⟨⟩))
    intro φ' hφ'
    refine (Discipline.keeps_bind _ _ _).mpr ?_
    refine (hshuts (by rintro ⟨⟩) (hφ'.closing (by decide))).mono ?_ fun _ _ h => h
    intro φ'' _ hφ''
    exact (Discipline.keeps_bind _ _ _).mpr (care_invokeHelperScript hφ'' _ hφ'')
  | activate =>
    refine (Discipline.keeps_bind _ _ _).mpr (care_change hcons hdev hφ ?_ (by rintro ⟨⟩))
    intro φ' hφ'
    have hopening : φ'.stage = .opening dev.resFile := hφ'
    refine (Discipline.keeps_bind _ _ _).mpr
      (care_invokeHelperScript (CarePhase.done_of_eq hopening (by simp)) _ ?_)
    exact (Discipline.keeps_bind _ _ _).mpr (care_setFpgaDeviceAccess_true hdev hopening)
  | deactivate =>
    refine (Discipline.keeps_bind _ _ _).mpr (care_change hcons hdev hφ ?_ (by rintro ⟨⟩))
    intro φ' hφ'
    refine (Discipline.keeps_bind _ _ _).mpr ?_
    refine (care_invokeHelperScript_inactive hdev (hφ'.closing (by decide))).mono ?_
      fun _ _ h => h
    intro φ'' _ hφ''
    exact (Discipline.keeps_bind _ _ _).mpr (hshuts (by rintro ⟨⟩) hφ'')
  | dropReservation =>
    refine (Discipline.keeps_bind _ _ _).mpr (care_change hcons hdev hφ ?_ (by rintro ⟨⟩))
    intro φ' hφ'
    exact (Discipline.keeps_bind _ _ _).mpr
      (hshuts (by rintro ⟨⟩) (hφ'.closing (by decide)))
  | reset =>
    refine (Discipline.keeps_bind _ _ _).mpr (care_change hcons hdev hφ ?_ (by rintro ⟨⟩))
    intro φ' hφ'
    exact (Discipline.keeps_bind _ _ _).mpr
      (hshuts (by rintro ⟨⟩) (hφ'.closing (by decide)))
  | setSignature signature =>
    refine (Discipline.keeps_bind _ _ _).mpr (care_change hcons hdev hφ ?_ (by rintro ⟨⟩))
    intro φ' hφ'
    -- A board that is given a signature was being programmed before.
    rcases hφ' with hφ' | ⟨-, hn, -⟩
    · exact CarePhase.done_of_eq hφ' (by simp)
    · cases hn rfl
  | getSignature => exact care_query (makes_serveDevice host inv dev rfl) hdone
  | getState => exact care_query (makes_serveDevice host inv dev rfl) hdone
  | getConfig key => exact care_query (makes_serveDevice host inv dev rfl) hdone

/-- The loop of `reserve`. -/
theorem care_reserveFrom (hcons : Consistent devs) (cls : String) (ds : List Device)
    (hds : ∀ d ∈ ds, d ∈ devs) (hφ : φ.stage = .unwritten) :
    (care devs inv).Keeps (fun φ d => d ∈ devs ∧ Closing d φ) (WhereDone (α := Stop)) φ
      (reserveFrom host inv cls ds) := by
  induction ds generalizing φ with
  | nil => exact CarePhase.done_of_eq hφ (by simp)
  | cons d ds ih =>
    have hd := hds d (List.mem_cons_self ..)
    have hrest : ∀ d' ∈ ds, d' ∈ devs := fun d' hd' => hds d' (List.mem_cons_of_mem _ hd')
    refine Discipline.keeps_ite (fun _ => ?_) fun _ => ih hrest hφ
    refine (Discipline.keeps_bind _ _ _).mpr (care_change hcons hd hφ ?_ ?_)
    · exact fun φ' hφ' => ⟨hd, hφ'.closing (by decide)⟩
    · exact fun _ φ' hφ' => ih hrest hφ'

/-- **No invocation exits in between.** -/
theorem keeps_care (hcons : Consistent host.devices) (inv : Invocation) :
    (care host.devices inv).Keeps (fun _ _ => True) (fun _ _ => True) ⟨none, .unwritten⟩
      (invocation host inv) := by
  refine Discipline.keeps_closing ?_
  refine Discipline.Keeps.mono (Q := WhereDone) (E := WhereDone) ?_
    (fun φ _ hφ => ⟨hφ, fun _ => trivial⟩) fun φ _ hφ => ⟨hφ, fun _ => trivial⟩
  have hdone : CarePhase.Done ⟨none, .unwritten⟩ := CarePhase.done_of_eq rfl (by simp)
  rw [main]
  rcases hprepare : prepare host inv with message | job
  · exact hdone
  obtain ⟨cfg, hcfg, hof⟩ := prepare_ok hprepare
  have hdevs : host.devices = devices cfg := by
    rw [Host.devices, Option.mem_def.mp hcfg]
    rfl
  rcases job with ⟨ds, _ | cls⟩ | ds | ⟨dev, r⟩
  · exact hdone
  · obtain ⟨rfl, cls', hreq⟩ := hof
    have hact : inv.activates = false := by simp [Invocation.activates, hreq]
    refine (Discipline.keeps_bind _ _ _).mpr ?_
    refine (care_reserveFrom hcons cls _ (fun d hd => hdevs ▸ hd) rfl).mono ?_ fun _ _ h => h
    rintro φ d ⟨hd, hφ⟩
    exact (Discipline.keeps_bind _ _ _).mpr (care_setFpgaDeviceAccess_false hd hact hφ)
  · exact care_query (makes_queryStatus host ds) hdone
  · exact care_serveDevice hcons (hdevs ▸ hof.1) hof.2 rfl

/-! ## Every run -/

/-- There is a user who is not root and none of two. -/
theorem exists_user (o o' : Uid) : ∃ u : Uid, u ≠ 0 ∧ u ≠ o ∧ u ≠ o' := by
  by_contra hnone
  have htwo : ∀ u : Uid, u ≠ 0 → u = o ∨ u = o' := by
    intro u hu
    by_contra hne
    exact hnone ⟨u, hu, fun h => hne (.inl h), fun h => hne (.inr h)⟩
  have h1 := htwo 1 (by decide)
  have h2 := htwo 2 (by decide)
  have h3 := htwo 3 (by decide)
  bv_omega

/-- Where all access follows the reservations no group and no others have permissions. -/
theorem Follows.bits (h : Follows devs w f) (hpath : Guards devs f path) {file : DevFile}
    (hfile : file ∈ w.dev path) : file.mode &&& 0o066 = 0 := by
  by_contra hbits
  obtain ⟨u, hu, howner, hres⟩ := exists_user file.owner (ownerOf (w.res f))
  have hacc : file.Accessible u := by rwa [DevFile.Accessible, if_neg howner.symm]
  exact hres (h path hpath u hu ⟨file, hfile, hacc⟩).2.symm

theorem Guarded.start {host : Host} (h : ∀ f, Follows host.devices w f) :
    Guarded host.devices invs (fun _ => (.start, ⟨none, .unwritten⟩)) w where
  holds := .start
  known _ := rfl
  bits f _ hpath _ hfile := (h f).bits hpath hfile
  stages _ := trivial
  follows f _ := h f

/-- **Device access follows the reservation.** In every run whose steps are all cautious the users
other than root who may use the device file of a board are those whose active board it is,
whenever no invocation has hold of its reservation. -/
theorem access_follows_reservation {host : Host} (hcons : Consistent host.devices)
    {s : Pool Reply Stop (List Text) Files} (h : (cautiousCtrl host invs).Reachable s) (f : String)
    (hfree : s.world.resLock f = none) : Follows host.devices s.world f := by
  obtain ⟨g, -, hguarded⟩ := Pool.invariant (I := Guarded host.devices invs)
    (fun p => Discipline.keeps_prod (keeps_invocation host (invs p)) (keeps_care hcons (invs p)))
    (fun w hw => Guarded.start hw)
    (fun g w p c r w' hI hallows hw =>
      guarded_step hcons hI hallows.1 hallows.2 hw.1 hw.2) h
  refine hguarded.follows f fun p hp => ?_
  have hstage := hguarded.stages p
  rw [hp] at hstage
  have hheld := hguarded.holds.held p f hstage.1
  rw [hfree] at hheld
  cases hheld

/-- A host with one board, which has a device file and a helper script. -/
def scriptedBoard : Host where
  cfg := some [{
    name := "board"
    cls := some "ML605"
    hasControlScript := some "yes"
    dev := some "/dev/fpga"
    busId := none
    progCableId := none
    location := none
    kernelModuleName := none
    kernelModulePath := none }]
  pwName := fun _ => none

/-- No reservations; the device file of the board is root's. -/
def unreserved : Files where
  progLock := none
  res := fun _ => []
  resLock := fun _ => none
  dev := fun path => if path = "/dev/fpga" then some ⟨0, 0o400⟩ else none

theorem consistent_scriptedBoard : Consistent scriptedBoard.devices := by
  have hone : ∀ d ∈ scriptedBoard.devices, ∀ d' ∈ scriptedBoard.devices, d = d' := by
    intro d hd d' hd'
    obtain rfl := List.mem_singleton.mp hd
    exact (List.mem_singleton.mp hd').symm
  exact ⟨fun d hd d' hd' _ => hone d hd d' hd' ▸ rfl, fun d hd d' hd' _ _ => hone d hd d' hd' ▸ rfl⟩

theorem follows_unreserved (f : String) : Follows scriptedBoard.devices unreserved f := by
  intro path hpath u hu hacc
  refine absurd hacc (noAccess_of_root (fun file hfile => ?_) (fun file hfile => ?_) u hu) <;>
  · simp only [unreserved, Option.mem_def] at hfile
    split at hfile <;> cases hfile
    rfl

/-- A user reserves the board, activates it and deactivates it again. -/
def userSession : ℕ → Invocation
  | 0 => { uid := 1000, force := false, request := .reserve none, deviceId := none, polls := 0 }
  | 1 => request .activate
  | _ + 2 => request .deactivate

/-- The user's board is active after the first two requests, and only the user may use it. -/
theorem access_follows_reservation_active :
    ∃ s, (cautiousCtrl scriptedBoard userSession).Reachable s ∧
      Accessible s.world "/dev/fpga" 1000 ∧ Follows scriptedBoard.devices s.world "board" := by
  have hcalm : ∀ p w c, (Answers p w c (({ calm with pid := p } : Surroundings).answer w c).1
      (({ calm with pid := p } : Surroundings).answer w c).2) ∧
        Cautious scriptedBoard.devices userSession p w c
          (({ calm with pid := p } : Surroundings).answer w c).1
          (({ calm with pid := p } : Surroundings).answer w c).2 := by
    intro p w c
    refine ⟨({ calm with pid := p } : Surroundings).answers_answer w c, ?_⟩
    cases c <;> first | trivial | skip
    case runScript => exact ⟨fun _ _ _ => .inl rfl, fun _ h => absurd rfl h⟩
    case stat path =>
      intro _ h
      rcases hdev : w.dev path with _ | file <;> simp [Surroundings.answer, calm, hdev] at h
    case chown => rintro _ ⟨⟩
  have h₀ : (cautiousCtrl scriptedBoard userSession).Reachable
      ⟨fun p => invocation scriptedBoard (userSession p), unreserved⟩ :=
    .init ⟨rfl, follows_unreserved⟩
  have h₁ := Pool.run_reachable (hcalm 0) h₀
  have h₂ := Pool.run_reachable (hcalm 1) h₁
  refine ⟨_, h₂, ⟨⟨1000, 0o600⟩, rfl, by decide⟩, ?_⟩
  exact access_follows_reservation consistent_scriptedBoard h₂ "board" rfl

/-! ## A script that fails -/

/-- The script of the board fails when the user deactivates the board. The reservation says
inactive then, and the user may still use the device file. -/
theorem deactivate_leaves_access :
    ¬ ∀ (host : Host) (invs : ℕ → Invocation) (s : Pool Reply Stop (List Text) Files),
      (leapFpgaCtrl host invs fun w => ∀ f, Follows host.devices w f).Reachable s →
      ∀ f, s.world.resLock f = none → Follows host.devices s.world f := by
  intro h
  have h₀ : (leapFpgaCtrl scriptedBoard userSession
      fun w => ∀ f, Follows scriptedBoard.devices w f).Reachable
        ⟨fun p => invocation scriptedBoard (userSession p), unreserved⟩ :=
    .init ⟨rfl, follows_unreserved⟩
  have h₁ := invoke_reachable calm h₀ rfl
  have h₂ := invoke_reachable { calm with pid := 1 } h₁ rfl
  have h₃ := invoke_reachable { calm with pid := 2, script := fun _ _ => .exited 1 } h₂ rfl
  have hguards : Guards scriptedBoard.devices "board" "/dev/fpga" :=
    ⟨_, List.mem_singleton_self _, rfl, rfl⟩
  have hactive := (h _ _ _ h₃ "board" rfl "/dev/fpga" hguards 1000 (by decide)
    ⟨⟨1000, 0o600⟩, rfl, by decide⟩).1
  exact absurd hactive (by decide)

end LeapFpgaCtrl

end LeapPlatforms
