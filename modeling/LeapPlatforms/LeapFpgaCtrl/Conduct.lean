import LeapPlatforms.LeapFpgaCtrl.Invocation

/-!
# How an invocation proceeds

The order in which any invocation makes its calls, as a discipline. A phase says which
reservation file the invocation holds and what it knows to be in it, whether the programming lock
file is its own to remove, and what it has written.

The lock file is an invocation's own when the invocation has created it, and when it is about to
end the programming of the board whose reservation it has rewritten. There are two more cases, in
which an invocation takes the file for its own without having created it: it gives up on the
reservation file, or it finds a board that it is to program in another state, with a lock file
that was there before.

## Main definitions

* `Phase`, `conduct`
* `Legal` — what an invocation may write over what it has read
* `Holds`

## Main results

* `keeps_invocation` — every invocation keeps to its discipline
* `holds_step` — what an invocation has read and still holds is so
-/

namespace LeapPlatforms

namespace LeapFpgaCtrl

open Scan Prog

namespace Invocation

variable (inv : Invocation)

/-- A request to reserve a board. -/
def reserves : Bool :=
  match inv.request with
  | .reserve _ => true
  | _ => false

/-- A request to program a board. -/
def programs : Bool :=
  match inv.request with
  | .device .program => true
  | _ => false

/-- A request to set a signature, which is a request for the state of programming as well. -/
def signs : Bool :=
  match inv.request with
  | .device (.setSignature _) => true
  | _ => false

end Invocation

/-- How far an invocation has come. -/
structure Phase where
  /-- The reservation file it holds. -/
  held : Option String
  /-- What it knows to be in that file. -/
  known : Option Text
  /-- The programming lock file is its own. -/
  mine : Bool
  /-- The reservation file it has written. -/
  wrote : Option String

namespace Phase

/-- Before the first call. -/
def start : Phase := ⟨none, none, false, none⟩

end Phase

/-- The state a text is read as. -/
def stateOf (t : Text) : FpgaState := (scanReservation t).oldState

/-- The owner a text is read to name. -/
def ownerOf (t : Text) : Uid := (scanReservation t).owner

/-- What `inv` may write over `t₀`. -/
structure Legal (inv : Invocation) (t₀ t : Text) : Prop where
  owner : ownerOf t = inv.uid
  may : MayWrite inv.uid inv.force (stateOf t) (scanReservation t₀)
  /-- A board is reserved by a request to reserve one, and by no other. -/
  reserves : inv.reserves = true ↔ stateOf t = .reserved

/-- The discipline of an invocation. -/
def conduct (inv : Invocation) : Discipline Reply Phase where
  Allows g
    | .lockRes _ => g.held = none
    | .readRes f => g.held = some f
    | .writeRes f t => g.held = some f ∧ ∃ t₀, g.known = some t₀ ∧ Legal inv t₀ t ∧
        (stateOf t = .program → g.mine = true ∨ stateOf t₀ = .program)
    | .closeRes f => g.held = some f
    | .unlinkLock => g.mine = true
    | _ => True
  next g
    | .createLock => fun (r : Bool) => if r then { g with mine := true } else g
    | .lockRes f => fun (r : Bool) => if r then { g with held := some f } else g
    | .uninitialised => fun (r : BitVec 32) =>
      if (inv.programs ∨ inv.signs) ∧ r.toNat ≠ FpgaState.program.code
        then { g with mine := true } else g
    | .readRes _ => fun t =>
      { g with known := some t, mine := g.mine || (inv.programs && stateOf t ≠ .program) }
    | .writeRes f t => fun _ =>
      { g with
        known := some t
        mine := decide ((∃ t₀ ∈ g.known, stateOf t₀ = .program) ∧ stateOf t ≠ .program)
        wrote := some f }
    | .closeRes _ => fun _ => { g with held := none, known := none }
    | .unlinkLock => fun _ => { g with mine := false }
    | .exit => fun _ => { g with held := none, known := none, mine := false }
    | _ => fun _ => g

variable {host : Host} {inv : Invocation} {dev : Device} {g : Phase} {newState : FpgaState}
  {newSignature : Option Text}

/-- The changes that `inv` asks for. -/
structure Asks (inv : Invocation) (newState : FpgaState) (newSignature : Option Text) : Prop where
  program : newState = .program → newSignature = none → inv.programs = true
  sign : newState = .program → newSignature ≠ none → inv.signs = true
  reserve : inv.reserves = true ↔ newState = .reserved

/-- Where an invocation may end: anywhere. -/
abbrev Anywhere : Phase → Stop → Prop := fun _ _ => True

/-- A lock file is removed by an invocation that takes it for its own. -/
theorem keeps_removeLockIf {b : Bool} {Q : Phase → Unit → Prop} (hb : b = true → g.mine = true)
    (hQ : Q { g with mine := if b then false else g.mine } ()) :
    (conduct inv).Keeps Q Anywhere g (removeLockIf b) := by
  rcases b with _ | _
  · exact hQ
  · exact ⟨hb rfl, fun _ => hQ⟩

theorem keeps_lockReservation {Q : Phase → Unit → Prop} (hheld : g.held = none)
    (hasks : Asks inv newState newSignature) (hQ : Q { g with held := some dev.resFile } ())
    (n : ℕ) : (conduct inv).Keeps Q Anywhere g (lockReservation dev newState n) := by
  induction n with
  | zero =>
    refine ⟨hheld, ?_⟩
    rintro (_ | _)
    · refine ⟨trivial, fun (r : BitVec 32) => ?_⟩
      change (conduct inv).Keeps Q Anywhere _ (removeLockIf _ >>= fun _ => fail _)
      refine (Discipline.keeps_bind _ _ _).mpr (keeps_removeLockIf ?_ trivial)
      intro hremoves
      obtain ⟨hr, hstate⟩ : r.toNat ≠ FpgaState.program.code ∧ newState = .program := by
        simpa using hremoves
      have hwho : inv.programs = true ∨ inv.signs = true := by
        by_cases hsig : newSignature = none
        · exact .inl (hasks.program hstate hsig)
        · exact .inr (hasks.sign hstate hsig)
      simp [conduct, hwho, hr]
    · exact hQ
  | succ n ih =>
    refine ⟨hheld, ?_⟩
    rintro (_ | _)
    · exact ih
    · exact hQ

/-- **A change of the reservation.** Behind it the invocation has either written the reservation
or let go of the file again. -/
theorem keeps_change {Q : Phase → Bool → Prop} (hheld : g.held = none)
    (hasks : Asks inv newState newSignature)
    (htrue : ∀ g' : Phase, g'.wrote = some dev.resFile → Q g' true)
    (hfalse : newState = .reserved → ∀ g' : Phase, g'.held = none → Q g' false) :
    (conduct inv).Keeps Q Anywhere g
      (changeCurrentReservation host inv dev newState newSignature) := by
  refine ⟨trivial, ?_⟩
  rintro (_ | _)
  · trivial
  change (conduct inv).Keeps Q Anywhere _ (lockReservation dev newState 20 >>= fun _ => _)
  refine (Discipline.keeps_bind _ _ _).mpr (keeps_lockReservation hheld hasks ?_ 20)
  refine ⟨rfl, fun (t : Text) => ?_⟩
  change (conduct inv).Keeps Q Anywhere _ (enact dev inv.uid _)
  rcases hjudge : judge host.pwName inv.uid inv.force newState newSignature
    (scanReservation t) with ⟨_ | _, message⟩ | _ | ⟨s, sig, removes⟩
  · trivial
  · -- Only a request to program is refused so, and it has read another state.
    obtain ⟨hp, hn, -, hold, -⟩ := judge_refused_true.mp ⟨message, hjudge⟩
    refine (Discipline.keeps_bind _ _ _).mpr (keeps_removeLockIf (fun _ => ?_) trivial)
    simp [conduct, hasks.program hp hn, stateOf, hold]
  · exact ⟨rfl, fun _ => hfalse (judge_unavailable hjudge).1 _ rfl⟩
  · obtain ⟨rfl, hsig, rfl, hmay⟩ := judge_update hjudge
    have hlegal : Legal inv t (printReservation inv.uid (stateToWrite newState) sig) := by
      refine ⟨owner_print .., ?_, ?_⟩
      · rwa [stateOf, oldState_print]
      · rw [stateOf, oldState_print, stateToWrite_eq_reserved]
        exact hasks.reserve
    refine ⟨⟨rfl, t, rfl, hlegal, ?_⟩, fun _ => ?_⟩
    · rw [stateOf, oldState_print, stateToWrite_eq_program]
      intro hp
      by_cases hn : newSignature = none
      · by_cases hold : stateOf t = .program
        · exact .inr hold
        · exact .inl (by simp [conduct, hasks.program hp hn, hold])
      · -- A signature is set on a board that is being programmed.
        refine .inr ?_
        obtain ⟨signature, rfl⟩ := Option.ne_none_iff_exists'.mp hn
        by_contra hold
        simp [signatureToWrite, hp, show (scanReservation t).oldState ≠ .program from hold]
          at hsig
    · change (conduct inv).Keeps Q Anywhere _ (removeLockIf _ >>= fun _ => pure true)
      refine (Discipline.keeps_bind _ _ _).mpr (keeps_removeLockIf ?_ ?_)
      · intro hremoves
        have hremoves' := of_decide_eq_true hremoves
        simp only [conduct, stateOf, oldState_print]
        simpa using hremoves'
      · exact htrue _ rfl

/-- The calls behind the reservation are of no concern. -/
theorem keeps_of_makes_device {α : Type} {x : Ctrl α} (hx : x.Makes Call.IsDevice)
    {Q : Phase → α → Prop} (hQ : ∀ a, Q g a) : (conduct inv).Keeps Q Anywhere g x := by
  refine Discipline.keeps_of_makes hx ?_ hQ fun _ => trivial
  intro c hc
  cases c <;> first | exact hc.elim | exact ⟨trivial, fun _ => rfl⟩

/-- Waiting for the programming lock. -/
theorem keeps_acquireProgLock {Q : Phase → Unit → Prop}
    (hQ : ∀ g' : Phase, g'.held = g.held → Q g' ()) (n : ℕ) :
    (conduct inv).Keeps Q Anywhere g (acquireProgLock inv dev n) := by
  induction n generalizing g with
  | zero => trivial
  | succ n ih =>
    refine ⟨trivial, ?_⟩
    rintro (_ | _)
    · refine ⟨trivial, fun (lock : Option Text) => ?_⟩
      change (conduct inv).Keeps Q Anywhere g
        (if namesDevice lock dev.id = true ∨ inv.force = true then pure ()
          else acquireProgLock inv dev n)
      split
      · exact hQ g rfl
      · exact ih hQ
    · exact ⟨trivial, fun _ => hQ _ rfl⟩

/-- A request for one device that changes the reservation, and what follows the change. -/
theorem keeps_change_bind {Q : Phase → List Text → Prop} {rest : Bool → Ctrl (List Text)}
    (hheld : g.held = none) (hasks : Asks inv newState newSignature)
    (hstate : newState ≠ .reserved) (hrest : Trailing rest) (hQ : ∀ g' a, Q g' a) :
    (conduct inv).Keeps Q Anywhere g
      (changeCurrentReservation host inv dev newState newSignature >>= rest) := by
  refine (Discipline.keeps_bind _ _ _).mpr (keeps_change hheld hasks ?_ ?_)
  · exact fun g' _ => keeps_of_makes_device (hrest true) (hQ g')
  · exact fun h => absurd h hstate

/-- A query keeps to any discipline. -/
theorem keeps_of_makes_query {α : Type} {x : Ctrl α} (hx : x.Makes Call.IsQuery)
    {Q : Phase → α → Prop} (hQ : ∀ a, Q g a) : (conduct inv).Keeps Q Anywhere g x := by
  refine Discipline.keeps_of_makes hx ?_ hQ fun _ => trivial
  intro c hc
  cases c <;> first | exact hc.elim | exact ⟨trivial, fun _ => rfl⟩

theorem asks_of_change {r : DeviceRequest} (hr : inv.request = .device r)
    (hchange : r.change = some (newState, newSignature)) : Asks inv newState newSignature := by
  cases r <;> cases hchange <;>
    exact ⟨by simp [Invocation.programs, hr], by simp [Invocation.signs, hr],
      by simp [Invocation.reserves, hr]⟩

theorem keeps_serveDevice {Q : Phase → List Text → Prop} {r : DeviceRequest}
    (hr : inv.request = .device r) (hQ : ∀ g' a, Q g' a) :
    (conduct inv).Keeps Q Anywhere .start (serveDevice host inv dev r) := by
  rcases hchange : r.change with _ | ⟨newState, newSignature⟩
  · exact keeps_of_makes_query (makes_serveDevice host inv dev hchange) (hQ _)
  have hasks := asks_of_change hr hchange
  by_cases hprog : r = .program
  · subst hprog
    cases hchange
    obtain ⟨rest, hrest, hserve⟩ := serveDevice_program host inv dev
    rw [hserve]
    refine (Discipline.keeps_bind _ _ _).mpr (keeps_acquireProgLock ?_ _)
    exact fun g' hg' => keeps_change_bind hg' hasks (by decide) hrest hQ
  · obtain ⟨hstate, rest, hrest, hserve⟩ := serveDevice_of_change host inv dev hprog hchange
    rw [hserve]
    exact keeps_change_bind rfl hasks hstate hrest hQ

/-- The loop of `reserve`. -/
theorem keeps_reserveFrom {Q : Phase → Device → Prop} (hasks : Asks inv .reserved none)
    (cls : String) (devs : List Device) (hheld : g.held = none)
    (hQ : ∀ g', ∀ dev ∈ devs, g'.wrote = some dev.resFile → Q g' dev) :
    (conduct inv).Keeps Q Anywhere g (reserveFrom host inv cls devs) := by
  induction devs generalizing g with
  | nil => trivial
  | cons dev devs ih =>
    have hrest : ∀ g', ∀ dev ∈ devs, g'.wrote = some dev.resFile → Q g' dev :=
      fun g' d hd => hQ g' d (List.mem_cons_of_mem _ hd)
    rw [reserveFrom]
    by_cases hcls : dev.cls = cls
    · rw [if_pos hcls]
      refine (Discipline.keeps_bind _ _ _).mpr (keeps_change hheld hasks ?_ ?_)
      · exact fun g' hg' => hQ g' dev (List.mem_cons_self ..) hg'
      · exact fun _ g' hg' => ih hg' hrest
    · rw [if_neg hcls]
      exact ih hheld hrest

/-- What a request that has succeeded has done: where it was to reserve a board, it has written
the reservation of the board whose number it prints. -/
def Succeeded (host : Host) (inv : Invocation) (g : Phase) (lines : List Text) : Prop :=
  inv.reserves = true → ∃ cfg ∈ host.cfg, ∃ dev ∈ devices cfg,
    lines = [showInt dev.id] ∧ g.wrote = some dev.resFile

/-- **The discipline is kept** by every invocation. -/
theorem keeps_invocation (host : Host) (inv : Invocation) :
    (conduct inv).Keeps (Succeeded host inv) Anywhere .start (invocation host inv) := by
  refine Discipline.keeps_closing ?_
  have hend : ∀ g lines, Succeeded host inv g lines →
      (conduct inv).Allows g .exit ∧
        ∀ r : Unit, Succeeded host inv ((conduct inv).next g .exit r) lines :=
    fun g lines h => ⟨trivial, fun _ => h⟩
  refine Discipline.Keeps.mono (Q := Succeeded host inv) (E := Anywhere) ?_ hend
    fun _ _ _ => ⟨trivial, fun _ => trivial⟩
  rw [main]
  rcases hprepare : prepare host inv with message | job
  · trivial
  obtain ⟨cfg, hcfg, hof⟩ := prepare_ok hprepare
  rcases job with ⟨devs, _ | cls⟩ | devs | ⟨dev, r⟩
  · trivial
  · obtain ⟨rfl, cls', hreq⟩ := hof
    have hasks : Asks inv .reserved none :=
      ⟨by rintro ⟨⟩, by rintro ⟨⟩, by simp [Invocation.reserves, hreq]⟩
    change (conduct inv).Keeps (Succeeded host inv) Anywhere .start
      (reserveFrom host inv cls (devices cfg) >>= fun dev =>
        setFpgaDeviceAccess inv dev false >>= fun _ => pure [showInt dev.id])
    refine (Discipline.keeps_bind _ _ _).mpr (keeps_reserveFrom hasks cls _ rfl ?_)
    intro g dev hdev hwrote
    refine (Discipline.keeps_bind _ _ _).mpr
      (keeps_of_makes_device (makes_setFpgaDeviceAccess inv dev false) fun _ => ?_)
    exact fun _ => ⟨cfg, hcfg, dev, hdev, rfl, hwrote⟩
  · obtain ⟨-, hreq⟩ := hof
    refine keeps_of_makes_query (makes_queryStatus host devs) fun _ hres => ?_
    simp [Invocation.reserves, hreq] at hres
  · obtain ⟨-, hreq⟩ := hof
    refine keeps_serveDevice hreq fun _ _ hres => ?_
    simp [Invocation.reserves, hreq] at hres

/-! ## What an invocation knows -/

/-- What invocations hold they do hold, and what they know is so. -/
structure Holds (g : ℕ → Phase) (w : Files) : Prop where
  held : ∀ p f, (g p).held = some f → w.resLock f = some p
  known : ∀ p f t, (g p).held = some f → (g p).known = some t → w.res f = t
  /-- Nothing is known of files that are not held. -/
  idle : ∀ p, (g p).held = none → (g p).known = none

theorem Holds.start {w : Files} : Holds (fun _ => .start) w :=
  ⟨by rintro _ _ ⟨⟩, by rintro _ _ _ ⟨⟩, fun _ _ => rfl⟩

variable {g : ℕ → Phase} {w w' : Files} {p : ℕ}

/-- The step of one process. -/
theorem Holds.update {φ : Phase} (h : Holds g w)
    (hothers : ∀ q ≠ p, ∀ f, (g q).held = some f → w'.resLock f = some q ∧ w'.res f = w.res f)
    (hheld : ∀ f, φ.held = some f → w'.resLock f = some p)
    (hknown : ∀ f t, φ.held = some f → φ.known = some t → w'.res f = t)
    (hidle : φ.held = none → φ.known = none) : Holds (Function.update g p φ) w' := by
  refine ⟨fun q f hq => ?_, fun q f t hq ht => ?_, fun q hq => ?_⟩
  · by_cases hqp : q = p
    · subst hqp
      exact hheld f (by simpa using hq)
    · exact (hothers q hqp f (by simpa [hqp] using hq)).1
  · by_cases hqp : q = p
    · subst hqp
      exact hknown f t (by simpa using hq) (by simpa using ht)
    · have hq' : (g q).held = some f := by simpa [hqp] using hq
      rw [(hothers q hqp f hq').2]
      exact h.known q f t hq' (by simpa [hqp] using ht)
  · by_cases hqp : q = p
    · subst hqp
      simpa using hidle (by simpa using hq)
    · simpa [hqp] using h.idle q (by simpa [hqp] using hq)

/-- A step that leaves what is held and the files that are held as they are. -/
theorem Holds.congr {φ : Phase} (h : Holds g w) (hres : w'.res = w.res)
    (hresLock : w'.resLock = w.resLock) (hheld : φ.held = (g p).held)
    (hknown : φ.known = (g p).known) : Holds (Function.update g p φ) w' := by
  refine h.update (fun q _ f hq => ⟨?_, by rw [hres]⟩) (fun f hf => ?_) (fun f t hf ht => ?_)
    fun hf => ?_
  · rw [hresLock]
    exact h.held q f hq
  · rw [hresLock]
    exact h.held p f (hheld ▸ hf)
  · rw [hres]
    exact h.known p f t (hheld ▸ hf) (hknown ▸ ht)
  · rw [hknown]
    exact h.idle p (hheld ▸ hf)

/-- What another process holds is not this one's. -/
theorem Holds.ne (h : Holds g w) {q : ℕ} {f f' : String} (hq : (g q).held = some f') (hqp : q ≠ p)
    (hp : w.resLock f = none ∨ w.resLock f = some p) : f' ≠ f := by
  rintro rfl
  rw [h.held q f' hq] at hp
  rcases hp with hp | hp
  · cases hp
  · exact hqp (Option.some.inj hp)

/-- The reservation files are locked by processes, so what one knows another cannot change. -/
theorem holds_step {inv : Invocation} {c : Call} {r : Reply c} (h : Holds g w)
    (hallows : (conduct inv).Allows (g p) c) (hw : Answers p w c r w') :
    Holds (Function.update g p ((conduct inv).next (g p) c r)) w' := by
  cases c with
  | createLock =>
    obtain ⟨-, rfl⟩ := hw
    rcases r with _ | _ <;> exact h.congr rfl rfl rfl rfl
  | writeLock id =>
    obtain rfl := hw
    exact h.congr rfl rfl rfl rfl
  | readLock =>
    obtain ⟨-, rfl⟩ := hw
    exact h.congr rfl rfl rfl rfl
  | unlinkLock =>
    obtain rfl := hw
    exact h.congr rfl rfl rfl rfl
  | openRes f =>
    obtain rfl := hw
    exact h.congr rfl rfl rfl rfl
  | lockRes f =>
    obtain ⟨hr, rfl⟩ := hw
    rcases r with _ | _
    · exact h.congr rfl rfl rfl rfl
    -- The file was nobody's before.
    have hfree : w.resLock f = none ∨ w.resLock f = some p := of_decide_eq_true hr.symm
    have hknown : (g p).known = none := h.idle p hallows
    refine h.update (fun q hqp f' hq => ⟨?_, rfl⟩) ?_ ?_ ?_
    · simpa [h.ne hq hqp hfree] using h.held q f' hq
    · rintro f' ⟨⟩
      simp
    · intro f' t _ ht
      cases hknown.symm.trans ht
    · rintro ⟨⟩
  | uninitialised =>
    obtain rfl := hw
    refine h.congr rfl rfl ?_ ?_ <;> simp only [conduct] <;> split <;> rfl
  | readRes f =>
    obtain ⟨rfl, rfl⟩ := hw
    have hheld : (g p).held = some f := hallows
    refine h.update (fun q _ f' hq => ⟨h.held q f' hq, rfl⟩) (h.held p) ?_ ?_
    · intro f' t hf' ht
      obtain rfl : f = f' := Option.some.inj (hheld.symm.trans hf')
      exact Option.some.inj ht
    · intro hf'
      cases hheld.symm.trans hf'
  | writeRes f t =>
    obtain rfl := hw
    have hheld : (g p).held = some f := hallows.1
    refine h.update (fun q hqp f' hq => ⟨h.held q f' hq, ?_⟩) (h.held p) ?_ ?_
    · have hne := h.ne hq hqp (.inr (h.held p f hheld))
      simp [hne]
    · intro f' t' hf' ht'
      obtain rfl : f = f' := Option.some.inj (hheld.symm.trans hf')
      obtain rfl : t = t' := Option.some.inj ht'
      simp
    · intro hf'
      cases hheld.symm.trans hf'
  | closeRes f =>
    obtain rfl := hw
    have hheld : (g p).held = some f := hallows
    refine h.update (fun q hqp f' hq => ⟨?_, rfl⟩) ?_ ?_ fun _ => rfl
    · have hlock := h.held q f' hq
      simp [Files.release, hlock, hqp]
    · rintro f' ⟨⟩
    · rintro f' t ⟨⟩
  | peekRes f =>
    obtain ⟨-, rfl⟩ := hw
    exact h.congr rfl rfl rfl rfl
  | runScript cls cmd id dev =>
    obtain ⟨_, rfl⟩ := hw
    exact h.congr rfl rfl rfl rfl
  | stat path =>
    obtain ⟨rfl, -⟩ := hw
    exact h.congr rfl rfl rfl rfl
  | chown path uid =>
    obtain rfl := hw
    rcases r with _ | _ <;> exact h.congr rfl rfl rfl rfl
  | chmod path mode =>
    obtain rfl := hw
    rcases r with _ | _ <;> exact h.congr rfl rfl rfl rfl
  | exit =>
    obtain rfl := hw
    refine h.update (fun q hqp f' hq => ⟨?_, rfl⟩) ?_ ?_ fun _ => rfl
    · have hlock := h.held q f' hq
      simp [Files.release, hlock, hqp]
    · rintro f' ⟨⟩
    · rintro f' t ⟨⟩

/-- The call writes no reservation file. -/
def Call.Spares : Call → Prop
  | .writeRes _ _ => False
  | _ => True

/-- Only a write changes a reservation file. -/
theorem res_of_answers {c : Call} {r : Reply c} (hw : Answers p w c r w') (hc : c.Spares) :
    w'.res = w.res := by
  cases c with
  | createLock =>
    obtain ⟨-, rfl⟩ := hw
    rcases r with _ | _ <;> rfl
  | lockRes f =>
    obtain ⟨-, rfl⟩ := hw
    rcases r with _ | _ <;> rfl
  | runScript cls cmd id dev =>
    obtain ⟨_, rfl⟩ := hw
    rfl
  | chown path uid =>
    obtain rfl := hw
    rcases r with _ | _ <;> rfl
  | chmod path mode =>
    obtain rfl := hw
    rcases r with _ | _ <;> rfl
  | readLock => rw [hw.2]
  | readRes f => rw [hw.2]
  | peekRes f => rw [hw.2]
  | stat path => rw [hw.1]
  | writeRes f t => exact hc.elim
  | writeLock id =>
    obtain rfl := hw
    rfl
  | unlinkLock =>
    obtain rfl := hw
    rfl
  | openRes f => exact congrArg Files.res hw
  | uninitialised => exact congrArg Files.res hw
  | closeRes f =>
    obtain rfl := hw
    rfl
  | exit =>
    obtain rfl := hw
    rfl

theorem wrote_next {inv : Invocation} (φ : Phase) {c : Call} (r : Reply c) (hc : c.Spares) :
    ((conduct inv).next φ c r).wrote = φ.wrote := by
  cases c with
  | createLock => rcases r with _ | _ <;> rfl
  | lockRes f => rcases r with _ | _ <;> rfl
  | uninitialised =>
    simp only [conduct]
    split <;> rfl
  | writeRes f t => exact hc.elim
  | _ => rfl

end LeapFpgaCtrl

end LeapPlatforms
