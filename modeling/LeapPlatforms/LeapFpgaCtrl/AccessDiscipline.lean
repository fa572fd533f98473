import LeapPlatforms.LeapFpgaCtrl.Conduct
import LeapPlatforms.LeapFpgaCtrl.FailureAtomicity

/-!
# Access to the device files: what one call does

A user has access to the device file of a board while the user has the board and it is active.
The reservation and the device file are changed one after the other, so in between the rule does
not hold. How far it is from holding is a stage of the invocation that has hold of the board, and
the discipline of an invocation says which calls it may make in which stage.

## Main definitions

* `Accessible`, `Follows` — the rule
* `Consistent`, `Cautious`, `cautiousCtrl`
* `Stage`, `care` — how far the access is from following the reservation
* `Guarded` — the device files and the stages of all invocations

## Main results

* `guarded_writeRes`, `guarded_runScript`, `guarded_stat`, `guarded_chown`, `guarded_chmod`
* `guarded_step` — every call keeps it
-/

namespace LeapPlatforms

namespace LeapFpgaCtrl

open Scan Prog

/-! ## The rule -/

/-- The user `u`, who is not root, may read or write the device file: as its owner, or by the
permissions of the group and of others. -/
def DevFile.Accessible (file : DevFile) (u : Uid) : Prop :=
  if file.owner = u then file.mode &&& 0o600 ≠ 0 else file.mode &&& 0o066 ≠ 0

instance (file : DevFile) (u : Uid) : Decidable (file.Accessible u) :=
  inferInstanceAs (Decidable (ite _ _ _))

/-- The user `u` may read or write the file at `path`. -/
def Accessible (w : Files) (path : String) (u : Uid) : Prop :=
  ∃ file ∈ w.dev path, file.Accessible u

/-- No user may. -/
def NoAccess (w : Files) (path : String) : Prop := ∀ u : Uid, u ≠ 0 → ¬ Accessible w path u

/-- The file at `path` is the device file of a board with the reservation file `f`. -/
def Guards (devs : List Device) (f path : String) : Prop :=
  ∃ dev ∈ devs, dev.resFile = f ∧ dev.fpgaDev = some path

/-- The access to the boards with the reservation file `f` follows it. -/
def Follows (devs : List Device) (w : Files) (f : String) : Prop :=
  ∀ path, Guards devs f path → ∀ u : Uid, u ≠ 0 → Accessible w path u →
    stateOf (w.res f) = .active ∧ ownerOf (w.res f) = u

/-- Aliases of a board agree on its device file, and different boards have different ones. -/
structure Consistent (devs : List Device) : Prop where
  aliases : ∀ d ∈ devs, ∀ d' ∈ devs, d.resFile = d'.resFile → d.fpgaDev = d'.fpgaDev
  board : ∀ d ∈ devs, ∀ d' ∈ devs, d.fpgaDev ≠ none → d.fpgaDev = d'.fpgaDev →
    d.resFile = d'.resFile

variable {devs : List Device} {f f' path path' : String} {w w' : Files}

theorem Consistent.path_unique (h : Consistent devs) (hp : Guards devs f path)
    (hp' : Guards devs f path') : path = path' := by
  obtain ⟨d, hd, rfl, hdev⟩ := hp
  obtain ⟨d', hd', hres, hdev'⟩ := hp'
  have heq := h.aliases d hd d' hd' hres.symm
  rw [hdev, hdev'] at heq
  exact Option.some.inj heq

theorem Consistent.file_unique (h : Consistent devs) (hp : Guards devs f path)
    (hp' : Guards devs f' path) : f = f' := by
  obtain ⟨d, hd, rfl, hdev⟩ := hp
  obtain ⟨d', hd', rfl, hdev'⟩ := hp'
  exact h.board d hd d' hd' (by simp [hdev]) (hdev.trans hdev'.symm)

theorem NoAccess.follows (hcons : Consistent devs) (hguards : Guards devs f path)
    (h : NoAccess w path) : Follows devs w f := by
  intro path' hpath' u hu hacc
  rw [hcons.path_unique hpath' hguards] at hacc
  exact absurd hacc (h u hu)

/-- A file whose permissions are its owner's only is accessible to its owner only. -/
theorem DevFile.Accessible.owner {file : DevFile} {u : Uid} (h : file.Accessible u)
    (hbits : file.mode &&& 0o066 = 0) : file.owner = u := by
  by_contra hne
  rw [DevFile.Accessible, if_neg hne] at h
  exact h hbits

/-! ## Cautious runs -/

namespace Invocation

/-- A request to activate a board. -/
def activates (inv : Invocation) : Bool :=
  match inv.request with
  | .device .activate => true
  | _ => false

end Invocation

/-- The file at `path`, the device file of a board with the reservation file `f`, is as it was, or
it is for nobody but root or the user whose active board it is. -/
def Unopened (w w' : Files) (f path : String) : Prop :=
  w'.dev path = w.dev path ∨ ∀ file ∈ w'.dev path, file.mode &&& 0o066 = 0 ∧
    (file.owner = 0 ∨ stateOf (w.res f) = .active ∧ ownerOf (w.res f) = file.owner)

/-- A step at which access is neither given by a script nor, where it is to be taken away, left
by a script or a call that fails. -/
def Cautious (devs : List Device) (invs : ℕ → Invocation) (p : ℕ) (w : Files) (c : Call)
    (r : Reply c) (w' : Files) : Prop :=
  match c, r with
  | .runScript _ cmd _ dev, (result : ScriptResult) =>
    (∀ f path, Guards devs f path → Unopened w w' f path) ∧
    (cmd = "deactivate" → result ≠ .exited 0 → ∀ path ∈ dev, NoAccess w path)
  | .stat path, (result : StatResult) =>
    (invs p).activates = false → result = .failed → NoAccess w path
  | .chown path _, (chowned : Bool) =>
    (invs p).activates = false → chowned = false → NoAccess w path
  | _, _ => True

/-- The host, in the runs whose steps are all cautious, from files in which all access follows
the reservations. -/
def cautiousCtrl (host : Host) (invs : ℕ → Invocation) :
    TransitionSystem (Pool Reply Stop (List Text) Files) :=
  pool (fun p w c r w' => Answers p w c r w' ∧ Cautious host.devices invs p w c r w')
    (fun p => invocation host (invs p)) fun w => ∀ f, Follows host.devices w f

/-! ## The discipline -/

/-- What is left to do for the access to follow the reservation that an invocation has written. -/
inductive Stage
  /-- No reservation is written yet. -/
  | unwritten
  /-- The board is active, and its user may be given access. -/
  | opening (f : String)
  /-- The device file is the user's, or root's. -/
  | opened (f : String)
  /-- The board was active before and is not now: its user may still have access. -/
  | shutting (f : String)
  /-- The device file is root's. -/
  | shut (f : String)
  /-- Nobody has access. -/
  | settled (f : String)

namespace Stage

/-- Behind a call of `stat`. -/
def afterStat : StatResult → Stage → Stage
  | .found file, shutting f => if file.owner = 0 then settled f else shutting f
  | _, shutting f => settled f
  | _, stage => stage

/-- Behind a call of `chown`. -/
def afterChown (chowned : Bool) : Stage → Stage
  | opening f => if chowned then opened f else opening f
  | opened f => if chowned then opened f else opening f
  | shutting f => if chowned then shut f else settled f
  | shut f => if chowned then shut f else settled f
  | settled f => if chowned then shut f else settled f
  | unwritten => unwritten

/-- Behind a script. -/
def afterScript (result : ScriptResult) : Stage → Stage
  | shutting f => if result = .exited 0 then shutting f else settled f
  | stage => stage

/-- Behind the write of a reservation file that was known to read `known`. -/
def afterWrite (devs : List Device) (known : Option Text) (f : String) (t : Text) : Stage :=
  if stateOf t = .active then opening f
  else if (∃ t₀ ∈ known, stateOf t₀ = .active) ∧
      ∃ dev ∈ devs, dev.resFile = f ∧ dev.fpgaDev.isSome then shutting f
  else settled f

end Stage

/-- What an invocation has read, and how far it has come with the access. -/
structure CarePhase where
  known : Option Text
  stage : Stage

/-- The discipline of an invocation towards the device files. It does not exit while the access
has still to be taken away. -/
def care (devs : List Device) (inv : Invocation) : Discipline Reply CarePhase where
  Allows φ
    | .lockRes _ => φ.stage = .unwritten
    | .readRes _ => φ.stage = .unwritten
    | .writeRes _ _ => φ.stage = .unwritten
    | .closeRes _ => φ.stage = .unwritten
    | .runScript _ cmd _ dev => ∀ f, φ.stage = .shutting f →
        cmd = "deactivate" ∧ ∃ path ∈ dev, Guards devs f path
    | .stat path => ∀ f, φ.stage = .shutting f → inv.activates = false ∧ Guards devs f path
    | .chown path uid =>
      match φ.stage with
      | .opening f => uid = inv.uid ∧ Guards devs f path
      | .opened f => uid = inv.uid ∧ Guards devs f path
      | .shutting f => uid = 0 ∧ inv.activates = false ∧ Guards devs f path
      | .shut f => uid = 0 ∧ inv.activates = false ∧ Guards devs f path
      | .settled f => uid = 0 ∧ inv.activates = false ∧ Guards devs f path
      | .unwritten => False
    | .chmod path mode => mode &&& 0o066 = 0 ∧
      match φ.stage with
      | .opened f => Guards devs f path
      | .shut f => Guards devs f path
      | _ => False
    | .exit => ∀ f, φ.stage ≠ .shutting f
    | _ => True
  next φ
    | .readRes _ => fun t => { φ with known := some t }
    | .writeRes f t => fun _ => ⟨some t, .afterWrite devs φ.known f t⟩
    | .closeRes _ => fun _ => { φ with known := none }
    | .runScript _ _ _ _ => fun result => { φ with stage := φ.stage.afterScript result }
    | .stat _ => fun result => { φ with stage := φ.stage.afterStat result }
    | .chown _ _ => fun chowned => { φ with stage := φ.stage.afterChown chowned }
    | .exit => fun _ => ⟨none, .unwritten⟩
    | _ => fun _ => φ

/-- The permissions of the device file of a board may be changed once its owner was. -/
theorem care_chmod {inv : Invocation} {φ : CarePhase} {mode : BitVec 9}
    (hmode : mode &&& 0o066 = 0) (hguards : Guards devs f path)
    (hstage : φ.stage = .opened f ∨ φ.stage = .shut f) :
    (care devs inv).Allows φ (.chmod path mode) := by
  refine ⟨hmode, ?_⟩
  rcases hstage with hstage | hstage <;> simpa only [hstage] using hguards

/-! ## What holds in between -/

/-- The reservation file `f` says that its board is active and is the user's of `inv`. -/
def ActiveFor (inv : Invocation) (w : Files) (f : String) : Prop :=
  stateOf (w.res f) = .active ∧ ownerOf (w.res f) = inv.uid

/-- What the stage of an invocation says of the files, while it holds `held`. -/
def StageOk (devs : List Device) (inv : Invocation) (held : Option String) (w : Files) :
    Stage → Prop
  | .unwritten => True
  | .opening f => held = some f ∧ ActiveFor inv w f
  | .opened f => held = some f ∧ ActiveFor inv w f ∧ ∀ path, Guards devs f path →
      ∀ file ∈ w.dev path, file.owner = inv.uid ∨ file.owner = 0
  | .shutting f => held = some f ∧ stateOf (w.res f) ≠ .active
  | .shut f => held = some f ∧ stateOf (w.res f) ≠ .active ∧
    ∀ path, Guards devs f path → ∀ file ∈ w.dev path, file.owner = 0
  | .settled f => held = some f ∧ stateOf (w.res f) ≠ .active

/-- For the boards of `f` nothing has changed but that device files may have become root's, or
their user's. -/
def Spared (devs : List Device) (w w' : Files) (f : String) : Prop :=
  w'.res f = w.res f ∧ ∀ path, Guards devs f path → Unopened w w' f path

theorem Spared.of_eq (hres : w'.res = w.res) (hdev : w'.dev = w.dev) (f : String) :
    Spared devs w w' f :=
  ⟨by rw [hres], fun _ _ => .inl (by rw [hdev])⟩

theorem Unopened.accessible (h : Unopened w w' f path) {u : Uid} (hu : u ≠ 0)
    (hacc : Accessible w' path u) :
    Accessible w path u ∨ stateOf (w.res f) = .active ∧ ownerOf (w.res f) = u := by
  obtain ⟨file, hfile, hacc⟩ := hacc
  rcases h with heq | hroot
  · exact .inl ⟨file, heq ▸ hfile, hacc⟩
  · obtain ⟨hbits, howner | ⟨hactive, howner⟩⟩ := hroot file hfile
    · exact absurd ((hacc.owner hbits).symm.trans howner) hu
    · exact .inr ⟨hactive, howner.trans (hacc.owner hbits)⟩

theorem Follows.spared (h : Follows devs w f) (hs : Spared devs w w' f) : Follows devs w' f := by
  intro path hpath u hu hacc
  rw [hs.1]
  rcases (hs.2 path hpath).accessible hu hacc with hacc | howned
  · exact h path hpath u hu hacc
  · exact howned

theorem StageOk.spared {inv : Invocation} {held : Option String} {stage : Stage}
    (h : StageOk devs inv held w stage) (hs : ∀ f, held = some f → Spared devs w w' f) :
    StageOk devs inv held w' stage := by
  cases stage with
  | unwritten => trivial
  | opening f => exact ⟨h.1, by rw [ActiveFor, (hs f h.1).1]; exact h.2⟩
  | opened f =>
    refine ⟨h.1, by rw [ActiveFor, (hs f h.1).1]; exact h.2.1, fun path hpath file hfile => ?_⟩
    rcases (hs f h.1).2 path hpath with heq | hroot
    · exact h.2.2 path hpath file (heq ▸ hfile)
    · rcases (hroot file hfile).2 with howner | ⟨-, howner⟩
      · exact .inr howner
      · exact .inl (howner.symm.trans h.2.1.2)
  | shutting f => exact ⟨h.1, by rw [(hs f h.1).1]; exact h.2⟩
  | shut f =>
    refine ⟨h.1, by rw [(hs f h.1).1]; exact h.2.1, fun path hpath file hfile => ?_⟩
    rcases (hs f h.1).2 path hpath with heq | hroot
    · exact h.2.2 path hpath file (heq ▸ hfile)
    · rcases (hroot file hfile).2 with howner | ⟨hactive, -⟩
      · exact howner
      · exact absurd hactive h.2.1
  | settled f => exact ⟨h.1, by rw [(hs f h.1).1]; exact h.2⟩

variable {invs : ℕ → Invocation} {g : ℕ → Phase × CarePhase} {p : ℕ}

/-- The device files and the stages of all invocations, in every reachable state. -/
structure Guarded (devs : List Device) (invs : ℕ → Invocation) (g : ℕ → Phase × CarePhase)
    (w : Files) : Prop where
  holds : Holds (fun q => (g q).1) w
  known : ∀ p, (g p).2.known = (g p).1.known
  /-- Neither a group nor others have permissions. -/
  bits : ∀ f path, Guards devs f path → ∀ file ∈ w.dev path, file.mode &&& 0o066 = 0
  stages : ∀ p, StageOk devs (invs p) (g p).1.held w (g p).2.stage
  follows : ∀ f, (∀ p, (g p).2.stage ≠ .shutting f) → Follows devs w f

theorem fst_update (g : ℕ → Phase × CarePhase) (p : ℕ) (φ : Phase × CarePhase) :
    (fun q => (Function.update g p φ q).1) = Function.update (fun q => (g q).1) p φ.1 := by
  funext q
  by_cases hq : q = p
  · subst hq
    simp
  · simp [hq]

/-- The step of one process, which spares the boards of the others. -/
theorem Guarded.update {φ : Phase × CarePhase} (h : Guarded devs invs g w)
    (hholds : Holds (Function.update (fun q => (g q).1) p φ.1) w')
    (hknown : φ.2.known = φ.1.known)
    (hbits : ∀ f path, Guards devs f path → ∀ file ∈ w'.dev path, file.mode &&& 0o066 = 0)
    (hothers : ∀ q ≠ p, ∀ f, (g q).1.held = some f → Spared devs w w' f)
    (hself : StageOk devs (invs p) φ.1.held w' φ.2.stage)
    (hfollows : ∀ f, φ.2.stage ≠ .shutting f → (∀ q ≠ p, (g q).2.stage ≠ .shutting f) →
      Follows devs w' f) :
    Guarded devs invs (Function.update g p φ) w' := by
  refine ⟨by rwa [fst_update], fun q => ?_, hbits, fun q => ?_, fun f hf => ?_⟩
  · by_cases hq : q = p
    · subst hq
      simpa using hknown
    · simpa [hq] using h.known q
  · by_cases hq : q = p
    · subst hq
      simpa using hself
    · simpa [hq] using (h.stages q).spared (hothers q hq)
  · refine hfollows f (by simpa using hf p) fun q hq => ?_
    simpa [hq] using hf q

/-- A step that spares all boards, and after which there is no more left to do than before. -/
theorem Guarded.spared {φ : Phase × CarePhase} (h : Guarded devs invs g w)
    (hholds : Holds (Function.update (fun q => (g q).1) p φ.1) w')
    (hknown : φ.2.known = φ.1.known) (hs : ∀ f, Spared devs w w' f)
    (hbits : ∀ f path, Guards devs f path → ∀ file ∈ w'.dev path, file.mode &&& 0o066 = 0)
    (hself : StageOk devs (invs p) φ.1.held w' φ.2.stage)
    (hshut : ∀ f, (g p).2.stage = .shutting f → φ.2.stage = .shutting f ∨ Follows devs w f) :
    Guarded devs invs (Function.update g p φ) w' := by
  refine h.update hholds hknown hbits (fun _ _ f _ => hs f) hself fun f hf hothers => ?_
  refine Follows.spared ?_ (hs f)
  by_cases hp : (g p).2.stage = .shutting f
  · exact (hshut f hp).resolve_left hf
  · refine h.follows f fun q => ?_
    by_cases hq : q = p
    · subst hq
      exact hp
    · exact hothers q hq

/-- A step that changes no reservation and no device file. -/
theorem Guarded.quiet {φ : Phase × CarePhase} (h : Guarded devs invs g w)
    (hholds : Holds (Function.update (fun q => (g q).1) p φ.1) w')
    (hknown : φ.2.known = φ.1.known) (hres : w'.res = w.res) (hdev : w'.dev = w.dev)
    (hself : StageOk devs (invs p) φ.1.held w φ.2.stage)
    (hshut : ∀ f, (g p).2.stage = .shutting f → φ.2.stage = .shutting f ∨ Follows devs w f) :
    Guarded devs invs (Function.update g p φ) w' := by
  refine h.spared hholds hknown (.of_eq hres hdev) (fun f path hpath => ?_)
    (hself.spared fun f _ => .of_eq hres hdev f) hshut
  rw [hdev]
  exact h.bits f path hpath

/-- A change of one device file spares the other boards. -/
theorem Consistent.spared (hcons : Consistent devs) (hpath : Guards devs f path)
    (hres : w'.res = w.res) (hdev : ∀ path' ≠ path, w'.dev path' = w.dev path') :
    ∀ f' ≠ f, Spared devs w w' f' := by
  refine fun f' hf' => ⟨by rw [hres], fun path' hpath' => .inl (hdev path' ?_)⟩
  rintro rfl
  exact hf' (hcons.file_unique hpath' hpath)

/-- The device file of the board that a process holds is changed, by the process. -/
theorem Guarded.device {φ : Phase × CarePhase} (h : Guarded devs invs g w)
    (hcons : Consistent devs)
    (hholds : Holds (Function.update (fun q => (g q).1) p φ.1) w')
    (hknown : φ.2.known = φ.1.known) (hheld : (g p).1.held = some f)
    (hpath : Guards devs f path) (hres : w'.res = w.res)
    (hdev : ∀ path' ≠ path, w'.dev path' = w.dev path')
    (hbits : ∀ file ∈ w'.dev path, file.mode &&& 0o066 = 0)
    (hself : StageOk devs (invs p) φ.1.held w' φ.2.stage)
    (hstage : ∀ f', (g p).2.stage = .shutting f' → f' = f)
    (hfollows : φ.2.stage ≠ .shutting f → Follows devs w' f) :
    Guarded devs invs (Function.update g p φ) w' := by
  have hspared := hcons.spared hpath hres hdev
  refine h.update hholds hknown (fun f' path' hpath' file hfile => ?_) (fun q hq f' hf' => ?_)
    hself fun f' hf' hothers => ?_
  · by_cases hp : path' = path
    · subst hp
      exact hbits file hfile
    · rw [hdev path' hp] at hfile
      exact h.bits f' path' hpath' file hfile
  · exact hspared f' (h.holds.ne hf' hq (.inr (h.holds.held p f hheld)))
  · by_cases hff : f' = f
    · subst hff
      exact hfollows hf'
    · refine (h.follows f' fun q => ?_).spared (hspared f' hff)
      by_cases hq : q = p
      · subst hq
        exact fun hst => hff (hstage f' hst)
      · exact hothers q hq

/-- Nobody but root has access to a file that is root's. -/
theorem noAccess_of_root (howner : ∀ file ∈ w.dev path, file.owner = 0)
    (hbits : ∀ file ∈ w.dev path, file.mode &&& 0o066 = 0) : NoAccess w path := by
  rintro u hu ⟨file, hfile, hacc⟩
  exact hu ((hacc.owner (hbits file hfile)).symm.trans (howner file hfile))

/-- The access follows the reservation of an active board whose file is its user's or root's. -/
theorem follows_of_active {inv : Invocation} (hcons : Consistent devs)
    (hactive : ActiveFor inv w f) (hpath : Guards devs f path)
    (howner : ∀ file ∈ w.dev path, file.owner = inv.uid ∨ file.owner = 0)
    (hbits : ∀ file ∈ w.dev path, file.mode &&& 0o066 = 0) : Follows devs w f := by
  rintro path' hpath' u hu ⟨file, hfile, hacc⟩
  obtain rfl := hcons.path_unique hpath' hpath
  have hu' := hacc.owner (hbits file hfile)
  rcases howner file hfile with ho | ho
  · exact ⟨hactive.1, hactive.2.trans (ho.symm.trans hu')⟩
  · exact absurd (hu'.symm.trans ho) hu

/-- The device file of an active board is the user's or root's. -/
theorem Guarded.opened {φ : Phase × CarePhase} (h : Guarded devs invs g w)
    (hcons : Consistent devs)
    (hholds : Holds (Function.update (fun q => (g q).1) p φ.1) w')
    (hknown : φ.2.known = φ.1.known) (hheld : (g p).1.held = some f)
    (hheld' : φ.1.held = (g p).1.held) (hactive : ActiveFor (invs p) w f)
    (hpath : Guards devs f path) (hres : w'.res = w.res)
    (hdev : ∀ path' ≠ path, w'.dev path' = w.dev path')
    (howner : ∀ file ∈ w'.dev path, file.owner = (invs p).uid ∨ file.owner = 0)
    (hbits : ∀ file ∈ w'.dev path, file.mode &&& 0o066 = 0)
    (hstage : ∀ f', (g p).2.stage ≠ .shutting f') (hstage' : φ.2.stage = .opened f) :
    Guarded devs invs (Function.update g p φ) w' := by
  have hactive' : ActiveFor (invs p) w' f := by
    rw [ActiveFor, hres]
    exact hactive
  refine h.device hcons hholds hknown hheld hpath hres hdev hbits ?_
    (fun f' hf' => absurd hf' (hstage f')) fun _ =>
      follows_of_active hcons hactive' hpath howner hbits
  rw [hstage', hheld']
  refine ⟨hheld, hactive', fun path' hpath' => ?_⟩
  obtain rfl := hcons.path_unique hpath' hpath
  exact howner

/-- The device file of a board that is not active is root's. -/
theorem Guarded.shut {φ : Phase × CarePhase} (h : Guarded devs invs g w)
    (hcons : Consistent devs)
    (hholds : Holds (Function.update (fun q => (g q).1) p φ.1) w')
    (hknown : φ.2.known = φ.1.known) (hheld : (g p).1.held = some f)
    (hheld' : φ.1.held = (g p).1.held) (hclosed : stateOf (w.res f) ≠ .active)
    (hpath : Guards devs f path) (hres : w'.res = w.res)
    (hdev : ∀ path' ≠ path, w'.dev path' = w.dev path')
    (howner : ∀ file ∈ w'.dev path, file.owner = 0)
    (hbits : ∀ file ∈ w'.dev path, file.mode &&& 0o066 = 0)
    (hstage : ∀ f', (g p).2.stage = .shutting f' → f' = f) (hstage' : φ.2.stage = .shut f) :
    Guarded devs invs (Function.update g p φ) w' := by
  refine h.device hcons hholds hknown hheld hpath hres hdev hbits ?_ hstage fun _ =>
    (noAccess_of_root howner hbits).follows hcons hpath
  rw [hstage', hheld']
  refine ⟨hheld, by rwa [hres], fun path' hpath' => ?_⟩
  obtain rfl := hcons.path_unique hpath' hpath
  exact howner

theorem dev_changeDev (w : Files) (path : String) (c : DevFile → DevFile) :
    (∀ path' ≠ path, (w.changeDev path c).dev path' = w.dev path') ∧
      (w.changeDev path c).dev path = (w.dev path).map c := by
  refine ⟨fun path' hp => ?_, ?_⟩
  · simp [Files.changeDev, hp]
  · simp [Files.changeDev]

/-- A call that an invocation makes, and its reply. -/
structure Made (devs : List Device) (invs : ℕ → Invocation) (g : ℕ → Phase × CarePhase) (p : ℕ)
    (w : Files) (c : Call) (r : Reply c) (w' : Files) : Prop where
  allows : (conduct (invs p)).Allows (g p).1 c
  cares : (care devs (invs p)).Allows (g p).2 c
  answers : Answers p w c r w'
  cautious : Cautious devs invs p w c r w'

/-- The phases after a call. -/
def phasesAfter (devs : List Device) (invs : ℕ → Invocation) (g : ℕ → Phase × CarePhase) (p : ℕ)
    (c : Call) (r : Reply c) : ℕ → Phase × CarePhase :=
  Function.update g p (((conduct (invs p)).prod (care devs (invs p))).next (g p) c r)

/-- The reservation is written: the discipline closes the board if it was open to the user. -/
theorem guarded_writeRes {t : Text} {r : Unit}
    (h : Guarded devs invs g w) (hmade : Made devs invs g p w (.writeRes f t) r w') :
    Guarded devs invs (phasesAfter devs invs g p (.writeRes f t) r) w' := by
  obtain ⟨hallows, hcare, hw, hcautious⟩ := hmade
  have hholds := holds_step h.holds hallows hw
  have hself := h.stages p
  have hkn := h.known p
  obtain ⟨hheld, told, hknown, hlegal, -⟩ := hallows
  have hidle : (g p).2.stage = .unwritten := hcare
  have hread : w.res f = told := h.holds.known p f told hheld hknown
  have hcareknown : (g p).2.known = some told := hkn.trans hknown
  obtain rfl := hw
  refine h.update hholds rfl h.bits (fun q hq f' hf' => ⟨?_, fun _ _ => .inl rfl⟩) ?_
    fun f' hf' hothers => ?_
  · have hne := h.holds.ne hf' hq (.inr (h.holds.held p f hheld))
    simp [hne]
  · change StageOk devs (invs p) (g p).1.held _ (Stage.afterWrite devs (g p).2.known f t)
    by_cases ht : stateOf t = .active
    · rw [Stage.afterWrite, if_pos ht]
      exact ⟨hheld, by simp [ActiveFor, ht, hlegal.owner]⟩
    · rw [Stage.afterWrite, if_neg ht]
      split <;> exact ⟨hheld, by simpa using ht⟩
  · change Stage.afterWrite devs (g p).2.known f t ≠ _ at hf'
    have hbefore : Follows devs w f' := by
      refine h.follows f' fun q => ?_
      by_cases hq : q = p
      · subst hq
        simp [hidle]
      · exact hothers q hq
    by_cases hff : f' = f
    swap
    · exact hbefore.spared ⟨by simp [hff], fun _ _ => .inl rfl⟩
    subst hff
    intro path hpath u hu hacc
    obtain ⟨hold, howner⟩ := hbefore path hpath u hu hacc
    rw [hread] at hold howner
    by_cases ht : stateOf t = .active
    · -- The board was active before, so it is the same user's.
      have hfree : (scanReservation told).oldState ≠ .free := by
        rw [show (scanReservation told).oldState = .active from hold]
        decide
      have huid : (invs p).uid = ownerOf told := by
        rcases hlegal.may.owner hfree with huid | ⟨-, hcode⟩
        · exact huid
        · rw [ht] at hcode
          exact absurd hcode (by decide)
      simp [ht, hlegal.owner, huid, howner]
    · obtain ⟨d, hd, hres, hdev⟩ := hpath
      refine absurd ?_ hf'
      rw [Stage.afterWrite, if_neg ht, if_pos]
      exact ⟨⟨told, hcareknown, hold⟩, d, hd, hres, by simp [hdev]⟩

/-- The helper script runs: whatever it does to the device files, it opens none. -/
theorem guarded_runScript (hcons : Consistent devs) {cls cmd : String} {number : ℕ}
    {dev : Option String} {r : ScriptResult}
    (h : Guarded devs invs g w) (hmade : Made devs invs g p w (.runScript cls cmd number dev) r w') :
    Guarded devs invs (phasesAfter devs invs g p (.runScript cls cmd number dev) r) w' := by
  obtain ⟨hallows, hcare, hw, hcautious⟩ := hmade
  have hholds := holds_step h.holds hallows hw
  have hself := h.stages p
  have hkn := h.known p
  obtain ⟨dev', rfl⟩ := hw
  obtain ⟨hopen, hfails⟩ := hcautious
  have hspared : ∀ f, Spared devs w { w with dev := dev' } f :=
    fun f => ⟨rfl, hopen f⟩
  refine h.spared hholds hkn hspared (fun f path hpath file hfile => ?_) ?_ fun f hf => ?_
  · rcases hopen f path hpath with heq | hroot
    · exact h.bits f path hpath file (heq ▸ hfile)
    · exact (hroot file hfile).1
  · have hsame := hself.spared fun f _ => hspared f
    change StageOk devs (invs p) (g p).1.held _ ((g p).2.stage.afterScript r)
    rcases hstage : (g p).2.stage with _ | f | f | f | f | f <;> rw [hstage] at hsame
    case shutting =>
      simp only [Stage.afterScript]
      split <;> exact hsame
    all_goals exact hsame
  · change (g p).2.stage.afterScript r = _ ∨ _
    by_cases hr : r = .exited 0
    · exact .inl (by simp [hf, Stage.afterScript, hr])
    · obtain ⟨hcmd, path, hdev, hpath⟩ := hcare f hf
      exact .inr ((hfails hcmd hr path hdev).follows hcons hpath)

/-- A device file is looked at: one that is root's, or is not there, is closed. -/
theorem guarded_stat (hcons : Consistent devs) {r : StatResult}
    (h : Guarded devs invs g w) (hmade : Made devs invs g p w (.stat path) r w') :
    Guarded devs invs (phasesAfter devs invs g p (.stat path) r) w' := by
  obtain ⟨hallows, hcare, hw, hcautious⟩ := hmade
  have hholds := holds_step h.holds hallows hw
  have hself := h.stages p
  have hkn := h.known p
  obtain ⟨rfl, hr⟩ := hw
  refine h.quiet hholds hkn rfl rfl ?_ fun f hf => ?_
  · change StageOk devs (invs p) (g p).1.held _ ((g p).2.stage.afterStat r)
    rcases hstage : (g p).2.stage with _ | f | f | f | f | f <;> rw [hstage] at hself
    case shutting =>
      rcases r with _ | _ | file
      · exact hself
      · exact hself
      · simp only [Stage.afterStat]
        split <;> exact hself
    all_goals rcases r with _ | _ | file <;> exact hself
  · obtain ⟨hact, hpath⟩ := hcare f hf
    change (g p).2.stage.afterStat r = _ ∨ _
    rw [hf]
    have hbits := h.bits f path hpath
    rcases r with _ | _ | file
    · -- The file is not there.
      refine .inr (NoAccess.follows hcons hpath ?_)
      rintro u hu ⟨file, hfile, -⟩
      rcases hr with hr | hr
      · cases hr
      · rw [Option.mem_def.mp hfile] at hr
        cases hr
    · exact .inr ((hcautious hact rfl).follows hcons hpath)
    · by_cases howner : file.owner = 0
      · refine .inr (NoAccess.follows hcons hpath (noAccess_of_root ?_ hbits))
        intro file' hfile'
        rcases hr with hr | hr
        · cases hr
        · rw [Option.mem_def.mp hfile'] at hr
          cases hr
          exact howner
      · exact .inl (if_neg howner)

/-- A device file is given to the user of an active board, or to root. -/
theorem guarded_chown (hcons : Consistent devs) {uid : Uid} {r : Bool}
    (h : Guarded devs invs g w) (hmade : Made devs invs g p w (.chown path uid) r w') :
    Guarded devs invs (phasesAfter devs invs g p (.chown path uid) r) w' := by
  obtain ⟨hallows, hcare, hw, hcautious⟩ := hmade
  have hholds := holds_step h.holds hallows hw
  have hself := h.stages p
  have hkn := h.known p
  obtain rfl := hw
  rcases r with _ | _
  · -- The access is as it was before.
    refine h.quiet hholds hkn rfl rfl ?_ fun f hf => .inr ?_
    · change StageOk devs (invs p) (g p).1.held _ ((g p).2.stage.afterChown false)
      rcases hstage : (g p).2.stage with _ | f | f | f | f | f <;> rw [hstage] at hself
      · trivial
      · exact hself
      · exact ⟨hself.1, hself.2.1⟩
      · exact hself
      · exact ⟨hself.1, hself.2.1⟩
      · exact hself
    · simp only [care, hf] at hcare
      exact (hcautious hcare.2.1 rfl).follows hcons hcare.2.2
  obtain ⟨hframe, hfile⟩ := dev_changeDev w path fun file => { file with owner := uid }
  have howner : ∀ file ∈ (w.changeDev path fun file => { file with owner := uid }).dev path,
      file.owner = uid := by
    intro file hmem
    rw [hfile] at hmem
    obtain ⟨file', -, rfl⟩ := Option.mem_map.mp hmem
    rfl
  have hbits : ∀ f, Guards devs f path →
      ∀ file ∈ (w.changeDev path fun file => { file with owner := uid }).dev path,
        file.mode &&& 0o066 = 0 := by
    intro f hpath file hmem
    rw [hfile] at hmem
    obtain ⟨file', hmem', rfl⟩ := Option.mem_map.mp hmem
    exact h.bits f path hpath file' hmem'
  rcases hstage : (g p).2.stage with _ | f | f | f | f | f <;> rw [hstage] at hself
  · simp only [care, hstage] at hcare
  · simp only [care, hstage] at hcare
    obtain ⟨rfl, hpath⟩ := hcare
    exact h.opened hcons hholds hkn hself.1 rfl hself.2 hpath rfl hframe
      (fun file hmem => .inl (howner file hmem)) (hbits f hpath) (by simp [hstage])
      (congrArg (Stage.afterChown true) hstage)
  · simp only [care, hstage] at hcare
    obtain ⟨rfl, hpath⟩ := hcare
    exact h.opened hcons hholds hkn hself.1 rfl hself.2.1 hpath rfl hframe
      (fun file hmem => .inl (howner file hmem)) (hbits f hpath) (by simp [hstage])
      (congrArg (Stage.afterChown true) hstage)
  · simp only [care, hstage] at hcare
    obtain ⟨rfl, -, hpath⟩ := hcare
    exact h.shut hcons hholds hkn hself.1 rfl hself.2 hpath rfl hframe howner (hbits f hpath)
      (by rw [hstage]; rintro _ ⟨⟩; rfl) (congrArg (Stage.afterChown true) hstage)
  · simp only [care, hstage] at hcare
    obtain ⟨rfl, -, hpath⟩ := hcare
    exact h.shut hcons hholds hkn hself.1 rfl hself.2.1 hpath rfl hframe howner
      (hbits f hpath) (by simp [hstage]) (congrArg (Stage.afterChown true) hstage)
  · simp only [care, hstage] at hcare
    obtain ⟨rfl, -, hpath⟩ := hcare
    exact h.shut hcons hholds hkn hself.1 rfl hself.2 hpath rfl hframe howner (hbits f hpath)
      (by simp [hstage]) (congrArg (Stage.afterChown true) hstage)

/-- The permissions of a device file leave out the group and others. -/
theorem guarded_chmod (hcons : Consistent devs) {mode : BitVec 9} {r : Bool}
    (h : Guarded devs invs g w) (hmade : Made devs invs g p w (.chmod path mode) r w') :
    Guarded devs invs (phasesAfter devs invs g p (.chmod path mode) r) w' := by
  obtain ⟨hallows, hcare, hw, hcautious⟩ := hmade
  have hholds := holds_step h.holds hallows hw
  have hself := h.stages p
  have hkn := h.known p
  obtain rfl := hw
  rcases r with _ | _
  · exact h.quiet hholds hkn rfl rfl hself fun f hf => .inl hf
  obtain ⟨hmode, hpath⟩ := hcare
  obtain ⟨hframe, hfile⟩ := dev_changeDev w path fun file => { file with mode := mode }
  have hbits : ∀ file ∈ (w.changeDev path fun file => { file with mode := mode }).dev path,
      file.mode &&& 0o066 = 0 := by
    intro file hmem
    rw [hfile] at hmem
    obtain ⟨file', -, rfl⟩ := Option.mem_map.mp hmem
    exact hmode
  have howner : ∀ u, (∀ file ∈ w.dev path, file.owner = u ∨ file.owner = 0) →
      ∀ file ∈ (w.changeDev path fun file => { file with mode := mode }).dev path,
        file.owner = u ∨ file.owner = 0 := by
    intro u hu file hmem
    rw [hfile] at hmem
    obtain ⟨file', hmem', rfl⟩ := Option.mem_map.mp hmem
    exact hu file' hmem'
  rcases hstage : (g p).2.stage with _ | f | f | f | f | f <;> rw [hstage] at hself hpath
  case opened =>
    exact h.opened hcons hholds hkn hself.1 rfl hself.2.1 hpath rfl hframe
      (howner _ (hself.2.2 path hpath)) hbits (by simp [hstage]) hstage
  case shut =>
    refine h.shut hcons hholds hkn hself.1 rfl hself.2.1 hpath rfl hframe
      (fun file hmem => ?_) hbits (by simp [hstage]) hstage
    rcases howner 0 (fun file hmem => .inl (hself.2.2 path hpath file hmem)) file hmem
      with h0 | h0
    · exact h0
    · exact h0
  all_goals exact hpath.elim

/-- **One step.** -/
theorem guarded_step (hcons : Consistent devs) {c : Call} {r : Reply c}
    (h : Guarded devs invs g w) (hallows : (conduct (invs p)).Allows (g p).1 c)
    (hcare : (care devs (invs p)).Allows (g p).2 c) (hw : Answers p w c r w')
    (hcautious : Cautious devs invs p w c r w') :
    Guarded devs invs (Function.update g p (((conduct (invs p)).prod (care devs (invs p))).next
      (g p) c r)) w' := by
  have hholds := holds_step h.holds hallows hw
  have hself := h.stages p
  have hkn := h.known p
  cases c with
  | createLock =>
    obtain ⟨-, rfl⟩ := hw
    rcases r with _ | _
    · exact h.quiet hholds hkn rfl rfl hself fun f hf => .inl hf
    · exact h.quiet hholds hkn rfl rfl hself fun f hf => .inl hf
  | writeLock number =>
    obtain rfl := hw
    exact h.quiet hholds hkn rfl rfl hself fun f hf => .inl hf
  | readLock =>
    obtain ⟨-, rfl⟩ := hw
    exact h.quiet hholds hkn rfl rfl hself fun f hf => .inl hf
  | unlinkLock =>
    obtain rfl := hw
    exact h.quiet hholds hkn rfl rfl hself fun f hf => .inl hf
  | openRes f =>
    obtain rfl := hw
    exact h.quiet hholds hkn rfl rfl hself fun f hf => .inl hf
  | lockRes f =>
    have hidle : (g p).2.stage = .unwritten := hcare
    have hany : ∀ held, StageOk devs (invs p) held w (g p).2.stage := fun _ => by
      rw [hidle]
      trivial
    obtain ⟨-, rfl⟩ := hw
    rcases r with _ | _
    · exact h.quiet hholds hkn rfl rfl (hany _) fun f hf => .inl hf
    · exact h.quiet hholds hkn rfl rfl (hany _) fun f hf => .inl hf
  | uninitialised =>
    obtain rfl := hw
    refine h.quiet hholds ?_ rfl rfl ?_ fun f hf => .inl hf
    · simp only [Discipline.prod, conduct]
      split <;> exact hkn
    · simp only [Discipline.prod, conduct]
      split <;> exact hself
  | readRes f =>
    obtain ⟨-, rfl⟩ := hw
    exact h.quiet hholds rfl rfl rfl hself fun f hf => .inl hf
  | writeRes f t => exact guarded_writeRes h ⟨hallows, hcare, hw, hcautious⟩
  | closeRes f =>
    have hidle : (g p).2.stage = .unwritten := hcare
    obtain rfl := hw
    refine h.quiet hholds rfl rfl rfl ?_ fun f hf => .inl hf
    change StageOk devs (invs p) none w (g p).2.stage
    rw [hidle]
    trivial
  | peekRes f =>
    obtain ⟨-, rfl⟩ := hw
    exact h.quiet hholds hkn rfl rfl hself fun f hf => .inl hf
  | runScript cls cmd number dev => exact guarded_runScript hcons h ⟨hallows, hcare, hw, hcautious⟩
  | stat path => exact guarded_stat hcons h ⟨hallows, hcare, hw, hcautious⟩
  | chown path uid => exact guarded_chown hcons h ⟨hallows, hcare, hw, hcautious⟩
  | chmod path mode => exact guarded_chmod hcons h ⟨hallows, hcare, hw, hcautious⟩
  | exit =>
    obtain rfl := hw
    exact h.quiet hholds rfl rfl rfl trivial fun f hf => absurd hf (hcare f)

end LeapFpgaCtrl

end LeapPlatforms
