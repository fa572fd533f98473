import LeapPlatforms.LeapFpgaCtrl.Conduct
import LeapPlatforms.LeapFpgaCtrl.FailureAtomicity
import Mathlib.Data.List.Basic

/-!
# Whose board it is

Without force a board that is reserved is only ever written by the user who has reserved it. The
statement is about the writes of each reservation file from the first one on, by any invocations
of any users: the reservation a write replaces is the one the write before it left, and with what
its invocation may write that gives every line of `Owned`.

The reservation file, not the device, is what is owned. Two devices with one bus have one file,
so a board is not given to two users under two names either.

## Main definitions

* `Write`, `noteWrite`, `recordedCtrl` — the host, with the writes of every reservation file
* `History` — writes that follow one another and are each allowed
* `Owned` — what ownership means for the writes of one file

## Main results

* `History.reservation` — behind every reservation there is a request to reserve
* `reservations_are_owned`
-/

namespace LeapPlatforms

namespace LeapFpgaCtrl

open Scan Prog

/-- A write of a reservation file. -/
structure Write where
  pid : ℕ
  old : Text
  new : Text

/-- The writes of each reservation file are noted. -/
def noteWrite (p : ℕ) (w : Files) (c : Call) (_ : Reply c) (_ : Files)
    (log : String → List Write) : String → List Write :=
  match c with
  | .writeRes f t => Function.update log f (log f ++ [⟨p, w.res f, t⟩])
  | _ => log

/-- The host from a time at which no board is reserved, with the writes since then. -/
def recordedCtrl (host : Host) (invs : ℕ → Invocation) :
    TransitionSystem (Pool Reply Stop (List Text) (Files × (String → List Write))) :=
  pool (Semantics.recording Answers noteWrite) (fun p => invocation host (invs p))
    fun w => (∀ f, stateOf (w.1.res f) = .free) ∧ w.2 = fun _ => []

/-! ## The writes of one file -/

/-- Writes that lead from `t₀` to a text, each of them allowed to its invocation. -/
inductive History (invs : ℕ → Invocation) (t₀ : Text) : List Write → Text → Prop
  | nil : History invs t₀ [] t₀
  | snoc {log : List Write} (x : Write) : History invs t₀ log x.old →
      Legal (invs x.pid) x.old x.new → History invs t₀ (log ++ [x]) x.new

variable {host : Host} {invs : ℕ → Invocation} {t₀ t : Text} {log before after : List Write}
  {x : Write}

namespace History

theorem eq_of_nil (h : History invs t₀ [] t) : t = t₀ := by
  generalize hlog : ([] : List Write) = log at h
  cases h with
  | nil => rfl
  | snoc x hx hlegal => simp at hlog

/-- The part of a history before one of its writes leads to what that write replaces. -/
theorem before_write (h : History invs t₀ log t) (hlog : log = before ++ x :: after) :
    History invs t₀ before x.old ∧ Legal (invs x.pid) x.old x.new := by
  induction h generalizing after with
  | nil => simp at hlog
  | snoc y hy hlegal ih =>
    rcases List.eq_nil_or_concat' after with rfl | ⟨after', z, rfl⟩
    · obtain ⟨rfl, hxy⟩ := List.append_inj' hlog rfl
      obtain rfl : y = x := by simpa using hxy
      exact ⟨hy, hlegal⟩
    · rw [← List.cons_append, ← List.append_assoc] at hlog
      obtain ⟨rfl, -⟩ := List.append_inj' hlog rfl
      exact ih rfl

theorem legal (h : History invs t₀ log t) (hx : x ∈ log) : Legal (invs x.pid) x.old x.new := by
  obtain ⟨before, after, rfl⟩ := List.append_of_mem hx
  exact (h.before_write rfl).2

/-- The part of a history behind one of its writes begins with what that write left. -/
theorem after_write (h : History invs t₀ log t) (hlog : log = before ++ x :: after) :
    History invs x.new after t := by
  induction h generalizing after with
  | nil => simp at hlog
  | snoc y hy hlegal ih =>
    rcases List.eq_nil_or_concat' after with rfl | ⟨after', z, rfl⟩
    · obtain ⟨rfl, hxy⟩ := List.append_inj' hlog rfl
      obtain rfl : y = x := by simpa using hxy
      exact .nil
    · rw [← List.cons_append, ← List.append_assoc] at hlog
      obtain ⟨rfl, hyz⟩ := List.append_inj' hlog rfl
      obtain rfl : y = z := by simpa using hyz
      exact .snoc y (ih rfl) hlegal

variable (hforce : ∀ p, (invs p).force = false)
include hforce

/-- Without force a board is written by its owner. -/
theorem owner_of_legal (h : Legal (invs x.pid) x.old x.new) (hold : stateOf x.old ≠ .free) :
    (invs x.pid).uid = ownerOf x.old := by
  rcases h.may.owner hold with hown | ⟨hf, -⟩
  · exact hown
  · rw [hforce] at hf
    cases hf

/-- Without force a request to reserve writes only over a board that is free. -/
theorem free_of_reserves (h : Legal (invs x.pid) x.old x.new)
    (hres : (invs x.pid).reserves = true) : stateOf x.old = .free := by
  rcases h.may.reserved (h.reserves.mp hres) with hold | ⟨hf, -⟩
  · exact hold
  · rw [hforce] at hf
    cases hf

/-- **Reservations.** Where a history that began with a free board has come to a board that is
not, its owner has reserved the board, and has kept it since. -/
theorem reservation (h : History invs t₀ log t) (hfree : stateOf t₀ = .free)
    (ht : stateOf t ≠ .free) :
    ∃ earlier y later, log = earlier ++ y :: later ∧ (invs y.pid).reserves = true ∧
      (invs y.pid).uid = ownerOf t ∧
      ∀ z ∈ later, (invs z.pid).uid = ownerOf t ∧ stateOf z.new ≠ .free := by
  induction h with
  | nil => exact absurd hfree ht
  | snoc x hx hlegal ih =>
    by_cases hold : stateOf x.old = .free
    · -- A free board is given a state by a request to reserve only.
      have hres : stateOf x.new = .reserved := by
        have hcode := hlegal.may.free hold
        revert hcode ht
        cases stateOf x.new <;> simp [FpgaState.code]
      exact ⟨_, x, [], rfl, hlegal.reserves.mpr hres, hlegal.owner.symm, by simp⟩
    · obtain ⟨earlier, y, later, rfl, hres, huid, hlater⟩ := ih hold
      have howner : ownerOf x.old = ownerOf x.new :=
        (owner_of_legal hforce hlegal hold).symm.trans hlegal.owner.symm
      refine ⟨earlier, y, later ++ [x], by simp, hres, huid.trans howner, ?_⟩
      intro z hz
      rcases List.mem_append.mp hz with hz | hz
      · exact ⟨(hlater z hz).1.trans howner, (hlater z hz).2⟩
      · obtain rfl : z = x := by simpa using hz
        exact ⟨hlegal.owner.symm, ht⟩

/-- A board stays with its owner until the owner gives it up. -/
theorem kept_or_released (h : History invs t₀ log t) (ht₀ : stateOf t₀ ≠ .free) :
    (stateOf t ≠ .free ∧ ownerOf t = ownerOf t₀) ∨
      ∃ z ∈ log, (invs z.pid).uid = ownerOf t₀ ∧ stateOf z.new = .free := by
  induction h with
  | nil => exact .inl ⟨ht₀, rfl⟩
  | snoc x hx hlegal ih =>
    rcases ih with ⟨hold, howner⟩ | ⟨z, hz, hrel⟩
    · have huid := owner_of_legal hforce hlegal hold
      by_cases hnew : stateOf x.new = .free
      · exact .inr ⟨x, by simp, huid.trans howner, hnew⟩
      · exact .inl ⟨hnew, hlegal.owner.trans (huid.trans howner)⟩
    · exact .inr ⟨z, List.mem_append_left _ hz, hrel⟩

end History

/-- What the writes `log` of a reservation file that now reads `t` say of the board. -/
structure Owned (invs : ℕ → Invocation) (log : List Write) (t : Text) : Prop where
  /-- Until the first write the board is free. -/
  untouched : log = [] → stateOf t = .free
  /-- The reservation is what the last write left. -/
  current : ∀ before x, log = before ++ [x] → t = x.new
  /-- A write replaces what the write before it left. -/
  chained : ∀ before x y after, log = before ++ x :: y :: after → y.old = x.new
  /-- A board that is not free is written by its owner. -/
  changed : ∀ x ∈ log, stateOf x.old ≠ .free → (invs x.pid).uid = ownerOf x.old
  /-- A board goes beyond being reserved by its owner, who has reserved it before and has kept
  it since. -/
  advanced : ∀ before x after, log = before ++ x :: after →
    FpgaState.reserved.code < (stateOf x.new).code →
    ownerOf x.new = (invs x.pid).uid ∧ ∃ earlier y later, before = earlier ++ y :: later ∧
      (invs y.pid).reserves = true ∧ (invs y.pid).uid = (invs x.pid).uid ∧
      ∀ z ∈ later, (invs z.pid).uid = (invs x.pid).uid ∧ stateOf z.new ≠ .free
  /-- A board is reserved when it is free. -/
  reserved : ∀ x ∈ log, (invs x.pid).reserves = true →
    stateOf x.old = .free ∧ stateOf x.new = .reserved ∧ ownerOf x.new = (invs x.pid).uid
  /-- A board that is reserved a second time has been given up by the first user. -/
  released : ∀ before x mid y after, log = before ++ x :: (mid ++ y :: after) →
    (invs x.pid).reserves = true → (invs y.pid).reserves = true →
    ∃ z ∈ mid, (invs z.pid).uid = (invs x.pid).uid ∧ stateOf z.new = .free

theorem History.owned (hforce : ∀ p, (invs p).force = false) (h : History invs t₀ log t)
    (hfree : stateOf t₀ = .free) : Owned invs log t where
  untouched := by
    rintro rfl
    rwa [h.eq_of_nil]
  current before x hlog := (h.after_write hlog).eq_of_nil
  chained before x y after hlog :=
    ((h.after_write hlog).before_write (List.nil_append _).symm).1.eq_of_nil
  changed x hx hold := History.owner_of_legal hforce (h.legal hx) hold
  advanced before x after hlog hcode := by
    obtain ⟨hbefore, hlegal⟩ := h.before_write hlog
    have hold : stateOf x.old ≠ .free := fun hold => by
      have hle := hlegal.may.free hold
      omega
    have huid := History.owner_of_legal hforce hlegal hold
    obtain ⟨earlier, y, later, heq, hres, hy, hlater⟩ := hbefore.reservation hforce hfree hold
    refine ⟨hlegal.owner, earlier, y, later, heq, hres, hy.trans huid.symm, fun z hz => ?_⟩
    exact ⟨(hlater z hz).1.trans huid.symm, (hlater z hz).2⟩
  reserved x hx hres :=
    ⟨History.free_of_reserves hforce (h.legal hx) hres, (h.legal hx).reserves.mp hres,
      (h.legal hx).owner⟩
  released before x mid y after hlog hx hy := by
    have hlegal := (h.before_write hlog).2
    have hmid := (h.after_write hlog).before_write rfl
    have hnew : stateOf x.new ≠ .free := by
      rw [hlegal.reserves.mp hx]
      decide
    rcases hmid.1.kept_or_released hforce hnew with ⟨hy', -⟩ | ⟨z, hz, huid, hrel⟩
    · exact absurd (History.free_of_reserves hforce hmid.2 hy) hy'
    · exact ⟨z, hz, huid.trans hlegal.owner, hrel⟩

/-! ## Runs -/

/-- What holds of the writes in every reachable state. -/
structure Ledger (invs : ℕ → Invocation) (g : ℕ → Phase) (w : Files × (String → List Write)) :
    Prop where
  holds : Holds g w.1
  history : ∀ f, ∃ t₀, stateOf t₀ = .free ∧ History invs t₀ (w.2 f) (w.1.res f)
  wrote : ∀ p f, (g p).wrote = some f → ∃ x ∈ w.2 f, x.pid = p

theorem ledger_step {g : ℕ → Phase} {w w' : Files × (String → List Write)} {p : ℕ} {c : Call}
    {r : Reply c} (h : Ledger invs g w) (hallows : (conduct (invs p)).Allows (g p) c)
    (hw : Semantics.recording Answers noteWrite p w c r w') :
    Ledger invs (Function.update g p ((conduct (invs p)).next (g p) c r)) w' := by
  obtain ⟨hans, hnote⟩ := hw
  by_cases hc : c.Spares
  · -- Neither the files nor what is noted of them changes.
    have hres := res_of_answers hans hc
    have hlog : w'.2 = w.2 := by
      rw [hnote]
      cases c <;> first | rfl | exact hc.elim
    refine ⟨holds_step h.holds hallows hans, fun f => ?_, fun q f hq => ?_⟩
    · rw [hlog, hres]
      exact h.history f
    · rw [hlog]
      refine h.wrote q f ?_
      by_cases hqp : q = p
      · subst hqp
        rwa [Function.update_self, wrote_next _ _ hc] at hq
      · rwa [Function.update_of_ne hqp] at hq
  cases c <;> first | exact absurd trivial hc | skip
  case writeRes f t =>
    obtain ⟨hheld, told, hknown, hlegal, hprog⟩ := hallows
    have hold : w.1.res f = told := h.holds.known p f told hheld hknown
    have hw' : w'.1 = { w.1 with res := Function.update w.1.res f t } := hans
    have hlog : w'.2 = Function.update w.2 f (w.2 f ++ [⟨p, w.1.res f, t⟩]) := hnote
    refine ⟨holds_step h.holds ⟨hheld, told, hknown, hlegal, hprog⟩ hans, fun f' => ?_,
      fun q f' hq => ?_⟩
    · obtain ⟨t₀, hfree, hist⟩ := h.history f'
      refine ⟨t₀, hfree, ?_⟩
      rw [hlog, hw']
      by_cases hf : f' = f
      · subst hf
        simp only [Function.update_self]
        exact .snoc ⟨p, w.1.res f', t⟩ hist (hold ▸ hlegal)
      · simpa [hf] using hist
    · rw [hlog]
      by_cases hqp : q = p
      · subst hqp
        obtain rfl : f = f' := by simpa [conduct] using hq
        exact ⟨⟨q, w.1.res f, t⟩, by simp, rfl⟩
      · obtain ⟨x, hx, hpid⟩ := h.wrote q f' (by simpa [hqp] using hq)
        refine ⟨x, ?_, hpid⟩
        by_cases hf : f' = f
        · subst hf
          simp [hx]
        · simpa [hf] using hx

/-- **Ownership.** Let no invocation use force, and let no board be reserved to begin with. Then
in every reachable state the writes of every reservation file are as the ownership of a board
requires, and a request to reserve that has succeeded has written the reservation of the board
whose number it printed. -/
theorem reservations_are_owned (hforce : ∀ p, (invs p).force = false)
    {s : Pool Reply Stop (List Text) (Files × (String → List Write))}
    (h : (recordedCtrl host invs).Reachable s) :
    (∀ f, Owned invs (s.world.2 f) (s.world.1.res f)) ∧
      ∀ p lines, s.procs p = .ret lines → (invs p).reserves = true →
        ∃ cfg ∈ host.cfg, ∃ dev ∈ devices cfg, lines = [showInt dev.id] ∧
          ∃ x ∈ s.world.2 dev.resFile, x.pid = p := by
  obtain ⟨g, hkeeps, hledger⟩ := Pool.invariant (I := Ledger invs)
    (fun p => keeps_invocation host (invs p))
    (fun w hw => ⟨.start, fun f => ⟨_, hw.1 f, by rw [hw.2]; exact .nil⟩, by rintro p f ⟨⟩⟩)
    (fun g w p c r w' => ledger_step) h
  refine ⟨fun f => ?_, fun p lines hp hres => ?_⟩
  · obtain ⟨t₀, hfree, hist⟩ := hledger.history f
    exact hist.owned hforce hfree
  · have hdone := hkeeps p
    rw [hp] at hdone
    obtain ⟨cfg, hcfg, dev, hdev, hlines, hwrote⟩ := hdone hres
    exact ⟨cfg, hcfg, dev, hdev, hlines, hledger.wrote p _ hwrote⟩

/-- A user's request to reserve a board, and requests of the same user to activate it. -/
def reserveThenActivate : ℕ → Invocation
  | 0 => { uid := 1000, force := false, request := .reserve none, deviceId := none, polls := 0 }
  | _ + 1 => request .activate

/-- The user's board is active after the two requests, and is the user's. -/
theorem reservations_are_owned_active :
    ∃ s, (recordedCtrl oneBoard reserveThenActivate).Reachable s ∧
      s.procs 0 = .ret [['0']] ∧ stateOf (s.world.1.res "board") = .active ∧
      ∀ f, Owned reserveThenActivate (s.world.2 f) (s.world.1.res f) := by
  have h₀ : (leapFpgaCtrl oneBoard reserveThenActivate
      (fun w => ∀ f, stateOf (w.res f) = .free)).Reachable
        ⟨fun p => invocation oneBoard (reserveThenActivate p), noFiles⟩ :=
    .init ⟨rfl, fun _ => rfl⟩
  have h₁ := invoke_reachable calm h₀ rfl
  have h₂ := invoke_reachable { calm with pid := 1 } h₁ rfl
  obtain ⟨log, h₃⟩ := Pool.recorded noteWrite (fun _ _ => []) h₂
  have hforce : ∀ p, (reserveThenActivate p).force = false := by
    intro p
    rcases p with _ | p <;> rfl
  exact ⟨_, h₃, rfl, rfl, (reservations_are_owned hforce h₃).1⟩

end LeapFpgaCtrl

end LeapPlatforms
