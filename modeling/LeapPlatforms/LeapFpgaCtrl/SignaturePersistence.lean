import LeapPlatforms.LeapFpgaCtrl.Ownership

/-!
# How long a signature stays

A signature is set once a board is programmed, and goes from one reservation to the next: each
change of the reservation reads the line, and prints it again. What is read of a signature is its
first word, so the first change that follows, or the first query, takes the rest away, and from
then on the signature stays as it is until the board is programmed or reset.

The signature is what is read in the end exactly if it has no white space, as far as it fits the
field.

## Main definitions

* `Invocation.retains`, `Signed` — what an invocation writes as the signature
* `signing` — the discipline of it
* `notedCtrl` — the host, with the writes of every reservation file

## Main results

* `signed_of_update` — one change of the reservation
* `keeps_signing` — every invocation keeps to its discipline
* `signature_persists_iff`
-/

namespace LeapPlatforms

namespace LeapFpgaCtrl

open Scan Prog

/-- The signature a text is read to have. -/
def signatureOf (t : Text) : Text := (scanReservation t).signature

/-- Neither a request to program or to reset a board nor one to set a signature. -/
def Invocation.retains (inv : Invocation) : Bool :=
  match inv.request with
  | .device .program => false
  | .device .reset => false
  | .device (.setSignature _) => false
  | _ => true

/-- What `inv` writes over `t₀`, as to the signature. -/
structure Signed (inv : Invocation) (t₀ t : Text) : Prop where
  retains : inv.retains = true → signatureOf t = signatureOf t₀
  signs : ∀ sig, inv.request = .device (.setSignature sig) →
    signatureOf t = firstWord signatureWidth (sig.take signatureWidth)

/-! ## One change of the reservation -/

/-- There is no signature, or all three fields are there and it is a word. -/
theorem signatureOf_cases (t : Text) : signatureOf t = [] ∨
    ((scanReservation t).nFields = 3 ∧ ∃ u, signatureOf t = firstWord signatureWidth u) := by
  rw [signatureOf, scanReservation]
  rcases scanInt t with _ | ⟨owner, t₁⟩
  · exact .inl rfl
  dsimp only
  rcases scanInt t₁ with _ | ⟨state, t₂⟩
  · exact .inl rfl
  dsimp only
  by_cases hword : firstWord signatureWidth t₂ = []
  · rw [scanWord_eq_none hword]
    refine .inl ?_
    rcases FpgaState.ofCode (toInt32 state).toNat with _ | oldState
    · rfl
    · rfl
  · rw [scanWord_firstWord hword]
    refine .inr ?_
    rcases FpgaState.ofCode (toInt32 state).toNat with _ | oldState
    · exact ⟨rfl, t₂, rfl⟩
    · exact ⟨rfl, t₂, rfl⟩

/-- What is read as a signature is read again. -/
theorem firstWord_signatureOf (t : Text) :
    firstWord signatureWidth (signatureOf t) = signatureOf t := by
  rcases signatureOf_cases t with hnone | ⟨_, u, hu⟩
  · rw [hnone]
    rfl
  · rw [hu, firstWord_firstWord]

/-- Without the third field there is no signature. -/
theorem signatureOf_of_nFields {t : Text} (h : (scanReservation t).nFields < 3) :
    signatureOf t = [] := by
  rcases signatureOf_cases t with hnone | ⟨hthree, _⟩
  · exact hnone
  · omega

/-- The changes that `inv` asks for, as to the signature. -/
structure AsksSignature (inv : Invocation) (newState : FpgaState) (newSignature : Option Text) :
    Prop where
  retains : inv.retains = true → newState ≠ .program ∧ newState ≠ .reset
  signs : ∀ sig, inv.request = .device (.setSignature sig) →
    newState = .program ∧ newSignature = some sig

variable {host : Host} {inv : Invocation} {dev : Device} {newState s : FpgaState}
  {newSignature : Option Text} {t sig : Text} {removes : Bool}

theorem signatureOf_print (u : Uid) (s : FpgaState) (sig : Text) :
    signatureOf (printReservation u s sig) = firstWord signatureWidth sig := by
  rw [signatureOf, scanReservation_print]

/-- **A change of the reservation** leaves the signature, or sets it. -/
theorem signed_of_update (hasks : AsksSignature inv newState newSignature)
    (hjudge : judge host.pwName inv.uid inv.force newState newSignature (scanReservation t) =
      .update s sig removes) : Signed inv t (printReservation inv.uid s sig) := by
  obtain ⟨_, hsig, _, _⟩ := judge_update hjudge
  refine ⟨fun hretains => ?_, fun sig' hreq => ?_⟩
  · obtain ⟨hprogram, hreset⟩ := hasks.retains hretains
    rw [signatureOf_print]
    unfold signatureToWrite at hsig
    rw [if_neg hprogram, if_neg hreset] at hsig
    split at hsig
    · next hfields =>
      obtain rfl := Option.some.inj hsig
      rw [signatureOf_of_nFields hfields]
      rfl
    · obtain rfl := Option.some.inj hsig
      exact firstWord_signatureOf t
  · obtain ⟨rfl, rfl⟩ := hasks.signs sig' hreq
    rw [signatureOf_print]
    have hsome : (if (scanReservation t).oldState ≠ .program then none
        else some (sig'.take signatureWidth)) = some sig := hsig
    split at hsome
    · cases hsome
    · obtain rfl := Option.some.inj hsome
      rfl

/-! ## The discipline -/

/-- The discipline of an invocation, with what it knows to be in the reservation file that it
holds. -/
def signing (inv : Invocation) : Discipline Reply (Option Text) where
  Allows known
    | .writeRes _ t => ∃ t₀, known = some t₀ ∧ Signed inv t₀ t
    | _ => True
  next known
    | .readRes _ => fun t => some t
    | .writeRes _ t => fun _ => some t
    | .closeRes _ => fun _ => none
    | .exit => fun _ => none
    | _ => fun _ => known

variable {known : Option Text}

/-- The calls that concern no text of a reservation file. -/
def Call.IsPassive : Call → Prop
  | .readRes _ => False
  | .writeRes _ _ => False
  | .closeRes _ => False
  | .exit => False
  | _ => True

theorem signing_of_makes {α : Type} {x : Ctrl α} (hx : x.Makes Call.IsPassive)
    {Q : Option Text → α → Prop} {E : Option Text → Stop → Prop} (hQ : ∀ a, Q known a)
    (hE : ∀ e, E known e) : (signing inv).Keeps Q E known x := by
  refine Discipline.keeps_of_makes hx ?_ hQ hE
  intro c hc
  cases c <;> first | exact hc.elim | exact ⟨trivial, fun _ => rfl⟩

/-- An invocation may end anywhere. -/
abbrev Anyhow {α : Type} : Option Text → α → Prop := fun _ _ => True

theorem passive_removeLockIf (b : Bool) : (removeLockIf b).Makes Call.IsPassive := by
  cases b
  · trivial
  · exact ⟨trivial, fun _ => trivial⟩

theorem passive_lockReservation (n : ℕ) :
    (lockReservation dev newState n).Makes Call.IsPassive := by
  induction n with
  | zero =>
    refine ⟨trivial, ?_⟩
    rintro (_ | _)
    · refine ⟨trivial, fun (r : BitVec 32) => ?_⟩
      exact (passive_removeLockIf _).bind fun _ => trivial
    · trivial
  | succ n ih =>
    refine ⟨trivial, ?_⟩
    rintro (_ | _)
    · exact ih
    · trivial

/-- **A change of the reservation** keeps to the discipline. -/
theorem signing_change (hasks : AsksSignature inv newState newSignature)
    {Q : Option Text → Bool → Prop} (hQ : ∀ known got, Q known got) :
    (signing inv).Keeps Q Anyhow known
      (changeCurrentReservation host inv dev newState newSignature) := by
  refine ⟨trivial, ?_⟩
  rintro (_ | _)
  · trivial
  change (signing inv).Keeps Q Anyhow _ (lockReservation dev newState 20 >>= fun _ => _)
  refine (Discipline.keeps_bind _ _ _).mpr
    (signing_of_makes (passive_lockReservation 20) (fun _ => ?_) fun _ => trivial)
  refine ⟨trivial, fun (t : Text) => ?_⟩
  change (signing inv).Keeps Q Anyhow _ (enact dev inv.uid _)
  rcases hjudge : judge host.pwName inv.uid inv.force newState newSignature
    (scanReservation t) with ⟨removes, message⟩ | _ | ⟨s, sig, removes⟩
  · have hpassive : (enact dev inv.uid (.refused removes message)).Makes Call.IsPassive :=
      (passive_removeLockIf removes).bind fun _ => trivial
    exact signing_of_makes hpassive (fun _ => hQ _ _) fun _ => trivial
  · exact ⟨trivial, fun _ => hQ _ _⟩
  · refine ⟨⟨t, rfl, signed_of_update hasks hjudge⟩, fun _ => ?_⟩
    have hpassive : (removeLockIf removes >>= fun _ => pure true : Ctrl Bool).Makes
        Call.IsPassive := (passive_removeLockIf removes).bind fun _ => trivial
    exact signing_of_makes hpassive (fun _ => hQ _ _) fun _ => trivial

theorem Call.IsDevice.passive {c : Call} (hc : c.IsDevice) : c.IsPassive := by
  cases c <;> first | exact hc.elim | trivial

theorem Call.IsQuery.passive {c : Call} (hc : c.IsQuery) : c.IsPassive := by
  cases c <;> first | exact hc.elim | trivial

theorem passive_acquireProgLock (n : ℕ) :
    (acquireProgLock inv dev n).Makes Call.IsPassive := by
  induction n with
  | zero => trivial
  | succ n ih =>
    refine ⟨trivial, ?_⟩
    rintro (_ | _)
    · refine ⟨trivial, fun (lock : Option Text) => ?_⟩
      change (if namesDevice lock dev.id = true ∨ inv.force = true then pure ()
        else acquireProgLock inv dev n : Ctrl Unit).Makes Call.IsPassive
      exact makes_ite trivial ih
    · exact ⟨trivial, fun _ => trivial⟩

/-- A change of the reservation, and what follows it. -/
theorem signing_change_bind (hasks : AsksSignature inv newState newSignature)
    {rest : Bool → Ctrl (List Text)} (hrest : Trailing rest) :
    (signing inv).Keeps Anyhow Anyhow known
      (changeCurrentReservation host inv dev newState newSignature >>= rest) := by
  refine (Discipline.keeps_bind _ _ _).mpr (signing_change hasks fun known got => ?_)
  exact signing_of_makes ((hrest got).mono fun _ => Call.IsDevice.passive) (fun _ => trivial)
    fun _ => trivial

theorem asksSignature_of_change {r : DeviceRequest} (hr : inv.request = .device r)
    (hchange : r.change = some (newState, newSignature)) :
    AsksSignature inv newState newSignature := by
  cases r <;> cases hchange <;>
    exact ⟨by simp [Invocation.retains, hr], by simp [hr]⟩

theorem signing_serveDevice {r : DeviceRequest} (hr : inv.request = .device r) :
    (signing inv).Keeps Anyhow Anyhow none (serveDevice host inv dev r) := by
  rcases hchange : r.change with _ | ⟨newState, newSignature⟩
  · exact signing_of_makes ((makes_serveDevice host inv dev hchange).mono fun _ =>
      Call.IsQuery.passive) (fun _ => trivial) fun _ => trivial
  have hasks := asksSignature_of_change hr hchange
  by_cases hprog : r = .program
  · subst hprog
    cases hchange
    obtain ⟨rest, hrest, hserve⟩ := serveDevice_program host inv dev
    rw [hserve]
    refine (Discipline.keeps_bind _ _ _).mpr (signing_of_makes (passive_acquireProgLock _)
      (fun _ => ?_) fun _ => trivial)
    exact signing_change_bind hasks hrest
  · obtain ⟨_, rest, hrest, hserve⟩ := serveDevice_of_change host inv dev hprog hchange
    rw [hserve]
    exact signing_change_bind hasks hrest

/-- The loop of `reserve`. -/
theorem signing_reserveFrom (hasks : AsksSignature inv .reserved none) (cls : String)
    (devs : List Device) {Q : Option Text → Device → Prop} (hQ : ∀ known dev, Q known dev) :
    (signing inv).Keeps Q Anyhow known (reserveFrom host inv cls devs) := by
  induction devs generalizing known with
  | nil => trivial
  | cons dev devs ih =>
    rw [reserveFrom]
    by_cases hcls : dev.cls = cls
    · rw [if_pos hcls]
      refine (Discipline.keeps_bind _ _ _).mpr (signing_change hasks fun known got => ?_)
      cases got
      · exact ih
      · exact hQ known dev
    · rw [if_neg hcls]
      exact ih

/-- **The discipline is kept** by every invocation. -/
theorem keeps_signing (host : Host) (inv : Invocation) :
    (signing inv).Keeps Anyhow Anyhow none (invocation host inv) := by
  refine Discipline.keeps_closing ?_
  refine Discipline.Keeps.mono (Q := Anyhow) (E := Anyhow) ?_
    (fun _ _ _ => ⟨trivial, fun _ => trivial⟩) fun _ _ _ => ⟨trivial, fun _ => trivial⟩
  rw [main]
  rcases hprepare : prepare host inv with message | job
  · trivial
  obtain ⟨cfg, _, hof⟩ := prepare_ok hprepare
  rcases job with ⟨devs, _ | cls⟩ | devs | ⟨dev, r⟩
  · trivial
  · obtain ⟨_, cls', hreq⟩ := hof
    have hasks : AsksSignature inv .reserved none :=
      ⟨fun _ => ⟨by decide, by decide⟩, by simp [hreq]⟩
    change (signing inv).Keeps Anyhow Anyhow none
      (reserveFrom host inv cls devs >>= fun dev =>
        setFpgaDeviceAccess inv dev false >>= fun _ => pure [showInt dev.id])
    refine (Discipline.keeps_bind _ _ _).mpr
      (signing_reserveFrom hasks cls devs fun known dev => ?_)
    refine (Discipline.keeps_bind _ _ _).mpr (signing_of_makes
      ((makes_setFpgaDeviceAccess inv dev false).mono fun _ => Call.IsDevice.passive)
      (fun _ => trivial) fun _ => trivial)
  · exact signing_of_makes ((makes_queryStatus host devs).mono fun _ => Call.IsQuery.passive)
      (fun _ => trivial) fun _ => trivial
  · exact signing_serveDevice hof.2

/-! ## Runs -/

/-- The host from any time on, with the writes since then. -/
def notedCtrl (host : Host) (invs : ℕ → Invocation) :
    TransitionSystem (Pool Reply Stop (List Text) (Files × (String → List Write))) :=
  pool (Semantics.recording Answers noteWrite) (fun p => invocation host (invs p))
    fun w => w.2 = fun _ => []

variable {invs : ℕ → Invocation}

/-- The two disciplines know the same. -/
theorem known_next (φ : Phase) (c : Call) (r : Reply c) :
    (signing inv).next φ.known c r = ((conduct inv).next φ c r).known := by
  cases c with
  | createLock => rcases r with _ | _ <;> rfl
  | lockRes f => rcases r with _ | _ <;> rfl
  | uninitialised =>
    simp only [conduct]
    split <;> rfl
  | _ => rfl

/-- The signature that `f` is read to have is that of the last request to set one, if all writes
behind it leave the signature. -/
def Signatures (invs : ℕ → Invocation) (w : Files × (String → List Write)) (f : String) : Prop :=
  ∀ before x after sig, w.2 f = before ++ x :: after →
    (invs x.pid).request = .device (.setSignature sig) →
    (∀ y ∈ after, (invs y.pid).retains = true) →
    signatureOf (w.1.res f) = firstWord signatureWidth (sig.take signatureWidth)

/-- What holds in every reachable state. -/
structure SignedLedger (invs : ℕ → Invocation) (g : ℕ → Phase × Option Text)
    (w : Files × (String → List Write)) : Prop where
  holds : Holds (fun p => (g p).1) w.1
  known : ∀ p, (g p).2 = (g p).1.known
  signatures : ∀ f, Signatures invs w f

/-- **A write** leaves the signature, or sets it. -/
theorem Signatures.write {w w' : Files × (String → List Write)} {f : String} {p : ℕ} {t : Text}
    (h : Signatures invs w f) (hsigned : Signed (invs p) (w.1.res f) t) (hres : w'.1.res f = t)
    (hlog : w'.2 f = w.2 f ++ [⟨p, w.1.res f, t⟩]) : Signatures invs w' f := by
  intro before x after sig heq hsign hafter
  rw [hlog] at heq
  rw [hres]
  rcases List.eq_nil_or_concat' after with rfl | ⟨after', y, rfl⟩
  · obtain ⟨_, hx⟩ := List.append_inj' heq rfl
    obtain rfl := (List.cons.inj hx).1
    exact hsigned.signs sig hsign
  · rw [← List.cons_append, ← List.append_assoc] at heq
    obtain ⟨hbefore, hy⟩ := List.append_inj' heq rfl
    obtain rfl := (List.cons.inj hy).1
    rw [hsigned.retains (hafter _ (List.mem_append_right _ (List.mem_singleton_self _)))]
    exact h before x after' sig hbefore hsign fun z hz =>
      hafter z (List.mem_append_left _ hz)

theorem signedLedger_step {g : ℕ → Phase × Option Text} {w w' : Files × (String → List Write)}
    {p : ℕ} {c : Call} {r : Reply c} (h : SignedLedger invs g w)
    (hallows : ((conduct (invs p)).prod (signing (invs p))).Allows (g p) c)
    (hw : Semantics.recording Answers noteWrite p w c r w') :
    SignedLedger invs (Function.update g p
      (((conduct (invs p)).prod (signing (invs p))).next (g p) c r)) w' := by
  obtain ⟨hans, hnote⟩ := hw
  have hnext : (fun q => (Function.update g p
      (((conduct (invs p)).prod (signing (invs p))).next (g p) c r) q).1) =
      Function.update (fun q => (g q).1) p ((conduct (invs p)).next (g p).1 c r) := by
    funext q
    by_cases hqp : q = p
    · subst hqp
      rw [Function.update_self, Function.update_self]
      rfl
    · rw [Function.update_of_ne hqp, Function.update_of_ne hqp]
  refine ⟨?_, fun q => ?_, fun f => ?_⟩
  · rw [hnext]
    exact holds_step h.holds hallows.1 hans
  · by_cases hqp : q = p
    · subst hqp
      rw [Function.update_self]
      show (signing (invs q)).next (g q).2 c r = _
      rw [h.known q]
      exact known_next (g q).1 c r
    · rw [Function.update_of_ne hqp]
      exact h.known q
  · by_cases hc : c.Spares
    · have hres := res_of_answers hans hc
      have hlog : w'.2 = w.2 := by
        rw [hnote]
        cases c <;> first | rfl | exact hc.elim
      intro before x after sig heq
      rw [hres]
      rw [hlog] at heq
      exact h.signatures f before x after sig heq
    cases c <;> first | exact absurd trivial hc | skip
    case writeRes f' t =>
      obtain ⟨⟨hheld, _⟩, told, hknown, hsigned⟩ := hallows
      rw [h.known p] at hknown
      have hold : w.1.res f' = told := h.holds.known p f' told hheld hknown
      have hw' : w'.1 = { w.1 with res := Function.update w.1.res f' t } := hans
      have hlog : w'.2 = Function.update w.2 f' (w.2 f' ++ [⟨p, w.1.res f', t⟩]) := hnote
      by_cases hf : f = f'
      · subst hf
        refine (h.signatures f).write (hold ▸ hsigned) ?_ ?_
        · rw [hw']
          exact Function.update_self ..
        · rw [hlog]
          exact Function.update_self ..
      · intro before x after sig heq
        rw [hlog, Function.update_of_ne hf] at heq
        have hkeep : w'.1.res f = w.1.res f := by
          rw [hw']
          exact Function.update_of_ne hf ..
        rw [hkeep]
        exact h.signatures f before x after sig heq

/-- **What is read as the signature** after a request to set one, until a request to program or
to reset the board or to set another: its first word. -/
theorem signature_of_reachable {s : Pool Reply Stop (List Text) (Files × (String → List Write))}
    (h : (notedCtrl host invs).Reachable s) (f : String) : Signatures invs s.world f := by
  obtain ⟨g, _, hledger⟩ := Pool.invariant (I := SignedLedger invs)
    (fun p => Discipline.keeps_prod (keeps_invocation host (invs p)) (keeps_signing host (invs p)))
    (fun w hw => ⟨.start, fun _ => rfl, fun f before x after sig heq => by
      rw [hw] at heq
      exact absurd heq.symm (by simp)⟩)
    (fun g w p c r w' => signedLedger_step) h
  exact hledger.signatures f

/-! ## What `--getsignature` prints -/

/-- The lines of a signature. -/
def shown (sig : Text) : List Text := if sig ≠ [] then [sig] else []

theorem shown_injective : Function.Injective shown := by
  intro sig sig' h
  unfold shown at h
  split at h
  · split at h
    · exact (List.cons.inj h).1
    · cases h
  · split at h
    · cases h
    · next hnil hnil' => rw [not_not.mp hnil, not_not.mp hnil']

/-- **`--getsignature`** prints what is read as the signature. -/
theorem invoke_getSignature (env : Surroundings) (w : Files)
    (hprepare : prepare host inv = .ok (.device dev .getSignature)) :
    (invoke host env inv w).1 = .ok (shown (signatureOf (w.res dev.resFile))) := by
  have hmain : main host inv = currentReservationState host .signature dev := by
    rw [main, hprepare]
    rfl
  rw [invoke, invocation, run_closing, hmain]
  rfl

/-- **How long a signature stays.** In every run, `--getsignature` prints the signature last set,
cut to the field, after any number of reservations, activations, deactivations and releases of the
board, exactly if there is no white space in it. -/
theorem signature_persists_iff
    {s : Pool Reply Stop (List Text) (Files × (String → List Write))}
    (h : (notedCtrl host invs).Reachable s) {before after : List Write} {x : Write} {sig : Text}
    (hlog : s.world.2 dev.resFile = before ++ x :: after)
    (hsign : (invs x.pid).request = .device (.setSignature sig))
    (hafter : ∀ y ∈ after, (invs y.pid).retains = true) (env : Surroundings)
    (hprepare : prepare host inv = .ok (.device dev .getSignature)) :
    (invoke host env inv s.world.1).1 = .ok (shown (sig.take signatureWidth)) ↔
      ∀ c ∈ sig.take signatureWidth, isSpace c = false := by
  have hread := signature_of_reachable h dev.resFile before x after sig hlog hsign hafter
  have hlength : (sig.take signatureWidth).length ≤ signatureWidth := List.length_take_le ..
  rw [invoke_getSignature env s.world.1 hprepare, hread, Except.ok.injEq, shown_injective.eq_iff,
    firstWord_eq_self_iff, and_iff_left hlength]

/-! ## A signature of two words -/

/-- A user reserves the board, programs it, signs it and activates it. -/
def signThenActivate (sig : Text) : ℕ → Invocation
  | 0 => { uid := 1000, force := false, request := .reserve none, deviceId := none, polls := 0 }
  | 1 => request .program
  | 2 => request (.setSignature sig)
  | _ + 3 => request .activate

/-- The replies of the host, with the write noted. -/
def noting (env : Surroundings) (w : Files × (String → List Write)) (c : Call) :
    Reply c × (Files × (String → List Write)) :=
  ((env.answer w.1 c).1, (env.answer w.1 c).2,
    noteWrite env.pid w.1 c (env.answer w.1 c).1 (env.answer w.1 c).2 w.2)

theorem recording_noting (env : Surroundings) (w : Files × (String → List Write)) (c : Call) :
    Semantics.recording Answers noteWrite env.pid w c (noting env w c).1 (noting env w c).2 :=
  ⟨env.answers_answer w.1 c, rfl⟩

/-- The files after the first requests, one after the other. -/
def signed (sig : Text) : ℕ → Files × (String → List Write)
  | 0 => (noFiles, fun _ => [])
  | p + 1 => ((invocation oneBoard (signThenActivate sig p)).run (noting { calm with pid := p })
      (signed sig p)).2

theorem signed_reachable (sig : Text) (n : ℕ) :
    ∃ s, (notedCtrl oneBoard (signThenActivate sig)).Reachable s ∧ s.world = signed sig n ∧
      ∀ p, n ≤ p → s.procs p = invocation oneBoard (signThenActivate sig p) := by
  induction n with
  | zero => exact ⟨⟨_, _, _⟩, .init ⟨rfl, rfl⟩, rfl, fun _ _ => rfl⟩
  | succ n ih =>
    obtain ⟨s, hreach, hworld, hprocs⟩ := ih
    have hrun := Pool.run_reachable (recording_noting { calm with pid := n }) hreach
    refine ⟨_, hrun, ?_, fun p hp => ?_⟩
    · rw [signed, ← hworld]
      exact congrArg (fun y => (y.run (noting { calm with pid := n }) s.world).2) (hprocs n le_rfl)
    · have hne : p ≠ n := by omega
      exact (Function.update_of_ne hne ..).trans (hprocs p (by omega))

/-- The only board. -/
def board : Device where
  id := 0
  name := "board"
  cls := "XUPV5"
  hasScript := false
  fpgaDev := none
  busId := none
  progCableId := none
  resFile := "board"

/-- A signature of one word is there after the board has been activated. -/
theorem signature_persists_iff_oneWord : ∃ s,
    (notedCtrl oneBoard (signThenActivate ['v', '1'])).Reachable s ∧
    stateOf (s.world.1.res "board") = .active ∧
    (invoke oneBoard calm (request .getSignature) s.world.1).1 = .ok (shown ['v', '1']) := by
  obtain ⟨s, hreach, hworld, _⟩ := signed_reachable ['v', '1'] 4
  refine ⟨s, hreach, by rw [hworld]; rfl, ?_⟩
  have hlog : s.world.2 board.resFile = (signed ['v', '1'] 2).2 board.resFile ++
      ⟨2, "1000 2 \n".toList, "1000 2 v1\n".toList⟩ ::
        [⟨3, "1000 2 v1\n".toList, "1000 3 v1\n".toList⟩] := by
    rw [hworld]
    rfl
  have hafter : ∀ y ∈ [Write.mk 3 "1000 2 v1\n".toList "1000 3 v1\n".toList],
      (signThenActivate ['v', '1'] y.pid).retains = true := by
    intro y hy
    rw [List.mem_singleton.mp hy]
    rfl
  have hsign : (signThenActivate ['v', '1'] 2).request = .device (.setSignature ['v', '1']) := rfl
  refine (signature_persists_iff hreach hlog hsign hafter calm rfl).mpr ?_
  simp [signatureWidth, isSpace]

/-- A signature of two words is shorter as soon as it is read. -/
theorem getSignature_one_word_of_two :
    ¬ ∀ (host : Host) (invs : ℕ → Invocation)
        (s : Pool Reply Stop (List Text) (Files × (String → List Write))),
      (notedCtrl host invs).Reachable s → ∀ (dev : Device) (before after : List Write) (x : Write)
        (sig : Text), s.world.2 dev.resFile = before ++ x :: after →
      (invs x.pid).request = .device (.setSignature sig) →
      (∀ y ∈ after, (invs y.pid).retains = true) → ∀ (env : Surroundings) (inv : Invocation),
      prepare host inv = .ok (.device dev .getSignature) →
      (invoke host env inv s.world.1).1 = .ok (shown (sig.take signatureWidth)) := by
  intro h
  obtain ⟨s, hreach, hworld, _⟩ := signed_reachable ['a', ' ', 'b'] 3
  have hlog : s.world.2 board.resFile = (signed ['a', ' ', 'b'] 2).2 board.resFile ++
      ⟨2, "1000 2 \n".toList, "1000 2 a b\n".toList⟩ :: [] := by
    rw [hworld]
    rfl
  have hread := h _ _ s hreach board _ _ _ ['a', ' ', 'b'] hlog rfl (fun _ => by simp) calm
    (request .getSignature) rfl
  rw [hworld] at hread
  have hone : (invoke oneBoard calm (request .getSignature) (signed ['a', ' ', 'b'] 3).1).1 =
      .ok (shown ['a']) := rfl
  rw [hone, Except.ok.injEq, shown_injective.eq_iff] at hread
  cases hread

end LeapFpgaCtrl

end LeapPlatforms
