import Mathlib.Tactic.Common

/-!
# The interrupt controller of pcie-csr

A legacy interrupt is two messages to the endpoint: one that asserts it and, when the host has
acknowledged it, one that deasserts it. The controller shows each for one clock, and does not look
at whether the endpoint has taken it.

## Main definitions

* `IntrIn`, `IntrController`, `IntrController.next`
* `intrRun`, `accepted` — a run, and the messages that the endpoint takes
* `Interrupts` — what is said of a run

## Main results

* `interrupts_iff` — it holds of the runs in which the endpoint takes every message at once
-/

namespace LeapPlatforms

namespace PcieCsr

/-! ### The controller -/

/-- The input signals. -/
structure IntrIn where
  intInEn : Bool
  intrHostAck : Bool
  cfgInterruptRdyN : Bool

/-- The states of the machine. -/
inductive IntrCtrlState
  | idle
  | assert
  | wait
  | deassert
  deriving DecidableEq

/-- The registers; the defaults are the values after a reset. -/
structure IntrController where
  intOutReady : Bool := true
  cfgInterruptAssertN : Bool := true
  cfgInterruptN : Bool := true
  intrCtrlState : IntrCtrlState := .idle
  deriving DecidableEq

/-- A rising clock edge. The ready signal of the endpoint is connected, and not used. -/
def IntrController.next (hwChnlRst : Bool) (s : IntrController) (i : IntrIn) : IntrController :=
  if hwChnlRst then {}
  else
    match s.intrCtrlState with
    | .idle =>
      if i.intInEn then
        { cfgInterruptAssertN := false, cfgInterruptN := false, intOutReady := false
          intrCtrlState := .assert }
      else
        { cfgInterruptAssertN := true, cfgInterruptN := true, intOutReady := true
          intrCtrlState := .idle }
    | .assert =>
      if s.cfgInterruptN = false then
        { s with cfgInterruptN := true, cfgInterruptAssertN := false, intrCtrlState := .wait }
      else { s with cfgInterruptN := false, cfgInterruptAssertN := false }
    | .wait =>
      if i.intrHostAck then
        { s with cfgInterruptN := false, cfgInterruptAssertN := true, intrCtrlState := .deassert }
      else { s with cfgInterruptN := true, cfgInterruptAssertN := false }
    | .deassert =>
      if s.cfgInterruptN = false then
        { s with cfgInterruptN := true, intOutReady := true, intrCtrlState := .idle }
      else { s with cfgInterruptN := false, cfgInterruptAssertN := true }

/-! ### Runs -/

/-- A message to the endpoint. -/
inductive IntrMsg
  | assert
  | deassert
  deriving DecidableEq

/-- The other one. -/
def IntrMsg.other : IntrMsg → IntrMsg
  | .assert => .deassert
  | .deassert => .assert

/-- The message that the endpoint accepts in a clock. -/
def IntrController.accepts (s : IntrController) (i : IntrIn) : Option IntrMsg :=
  if s.cfgInterruptN = false ∧ i.cfgInterruptRdyN = false then
    some (if s.cfgInterruptAssertN then .deassert else .assert)
  else none

/-- The controller clock by clock, from a reset on. -/
def intrRun (ins : ℕ → IntrIn) : ℕ → IntrController
  | 0 => {}
  | k + 1 => (intrRun ins k).next false (ins k)

section Runs

variable (ins : ℕ → IntrIn)

/-- What is accepted, clock by clock. -/
def accepted (k : ℕ) : Option IntrMsg := (intrRun ins k).accepts (ins k)

/-- The message that is due: asserts and deasserts alternate. -/
def due : ℕ → IntrMsg
  | 0 => .assert
  | k + 1 => ((accepted ins k).map IntrMsg.other).getD (due k)

/-- What is said of a run. -/
structure Interrupts : Prop where
  alternate : ∀ k m, accepted ins k = some m → m = due ins k
  /-- A request, from the clock in which it is taken to the next one in which the controller is
  ready. -/
  request : ∀ a b, (intrRun ins a).intOutReady = true → (ins a).intInEn = true → a < b →
    (intrRun ins b).intOutReady = true →
    (∀ k, a < k → k < b → (intrRun ins k).intOutReady = false) →
    ∃ c e d, a < c ∧ c < e ∧ e < d ∧ d < b ∧ (ins e).intrHostAck = true ∧ ∀ k, a ≤ k → k < b →
      (accepted ins k = some .assert ↔ k = c) ∧ (accepted ins k = some .deassert ↔ k = d)
  /-- A message that is not accepted stays. -/
  stays : ∀ k, (intrRun ins k).cfgInterruptN = false → (ins k).cfgInterruptRdyN = true →
    (intrRun ins (k + 1)).cfgInterruptN = false ∧
      (intrRun ins (k + 1)).cfgInterruptAssertN = (intrRun ins k).cfgInterruptAssertN

end Runs

/-! ### The states -/

namespace IntrCtrlState

/-- The registers in a state. -/
def signals : IntrCtrlState → IntrController
  | .idle => {}
  | .assert => ⟨false, false, false, .assert⟩
  | .wait => ⟨false, false, true, .wait⟩
  | .deassert => ⟨false, true, false, .deassert⟩

/-- The next state. -/
def next (st : IntrCtrlState) (i : IntrIn) : IntrCtrlState :=
  match st with
  | .idle => if i.intInEn then .assert else .idle
  | .assert => .wait
  | .wait => if i.intrHostAck then .deassert else .wait
  | .deassert => .idle

theorem signals_next (st : IntrCtrlState) (i : IntrIn) :
    st.signals.next false i = (st.next i).signals := by
  cases st with
  | idle => cases hen : i.intInEn <;> simp [signals, next, IntrController.next, hen]
  | assert => rfl
  | wait => cases hack : i.intrHostAck <;> simp [signals, next, IntrController.next, hack]
  | deassert => rfl

end IntrCtrlState

section Runs

variable (ins : ℕ → IntrIn)

/-- The state clock by clock. -/
def intrState : ℕ → IntrCtrlState
  | 0 => .idle
  | k + 1 => (intrState k).next (ins k)

theorem intrRun_eq (k : ℕ) : intrRun ins k = (intrState ins k).signals := by
  induction k with
  | zero => rfl
  | succ k ih => rw [intrRun, ih, IntrCtrlState.signals_next, intrState]

/-- The endpoint takes every message in the clock in which it is shown. -/
def TakesAtOnce : Prop :=
  ∀ k, (intrRun ins k).cfgInterruptN = false → (ins k).cfgInterruptRdyN = false

variable {ins}

theorem ready_iff {k : ℕ} : (intrRun ins k).intOutReady = true ↔ intrState ins k = .idle := by
  rw [intrRun_eq]
  cases intrState ins k <;> decide

theorem not_ready_iff {k : ℕ} : (intrRun ins k).intOutReady = false ↔ intrState ins k ≠ .idle := by
  rw [intrRun_eq]
  cases intrState ins k <;> decide

theorem cfgInterruptN_iff {k : ℕ} : (intrRun ins k).cfgInterruptN = false ↔
    intrState ins k = .assert ∨ intrState ins k = .deassert := by
  rw [intrRun_eq]
  cases intrState ins k <;> decide

/-- What is accepted in a state. -/
def IntrCtrlState.msg? : IntrCtrlState → Option IntrMsg
  | .assert => some .assert
  | .deassert => some .deassert
  | _ => none

theorem TakesAtOnce.accepted_eq (h : TakesAtOnce ins) (k : ℕ) :
    accepted ins k = (intrState ins k).msg? := by
  have hk := h k
  rw [accepted, IntrController.accepts, intrRun_eq] at *
  cases hst : intrState ins k with
  | idle => rfl
  | wait => rfl
  | assert | deassert =>
    rw [hst] at hk
    simp [IntrCtrlState.signals, IntrCtrlState.msg?, hk rfl]

/-! ### Alternation -/

/-- Between the two messages of an interrupt the second is due. -/
theorem TakesAtOnce.due_eq (h : TakesAtOnce ins) (k : ℕ) : due ins k =
    if intrState ins k = .wait ∨ intrState ins k = .deassert then .deassert else .assert := by
  induction k with
  | zero => rfl
  | succ k ih =>
    rw [due, ih, h.accepted_eq, intrState]
    cases intrState ins k with
    | idle => cases hen : (ins k).intInEn <;> simp [IntrCtrlState.next, IntrCtrlState.msg?, hen]
    | assert => rfl
    | wait =>
      cases hack : (ins k).intrHostAck <;> simp [IntrCtrlState.next, IntrCtrlState.msg?, hack]
    | deassert => rfl

theorem TakesAtOnce.alternate (h : TakesAtOnce ins) {k : ℕ} {m : IntrMsg}
    (hm : accepted ins k = some m) : m = due ins k := by
  rw [h.accepted_eq] at hm
  rw [h.due_eq]
  cases hst : intrState ins k <;> rw [hst] at hm <;> cases hm <;> rfl

/-! ### A request -/

/-- The controller waits for the acknowledgement of the host. -/
theorem wait_until {a b : ℕ} (hwait : intrState ins a = .wait) (hab : a ≤ b)
    (hb : intrState ins b = .idle) : ∃ e ≥ a, e < b ∧ (ins e).intrHostAck = true ∧
      ∀ k, a ≤ k → k ≤ e → intrState ins k = .wait := by
  obtain ⟨n, rfl⟩ := Nat.exists_eq_add_of_le hab
  clear hab
  induction n generalizing a with
  | zero => exact absurd (hwait.symm.trans hb) (by decide)
  | succ n ih =>
    cases hack : (ins a).intrHostAck with
    | true =>
      refine ⟨a, Nat.le_refl a, by omega, hack, fun k hak hka => ?_⟩
      rw [Nat.le_antisymm hka hak]
      exact hwait
    | false =>
      have hnext : intrState ins (a + 1) = .wait := by
        rw [intrState, hwait, IntrCtrlState.next, hack]
        rfl
      obtain ⟨e, hae, heb, hack', hall⟩ := ih hnext (by rw [← hb]; congr 1; omega)
      refine ⟨e, by omega, by omega, hack', fun k hak hke => ?_⟩
      rcases Nat.eq_or_lt_of_le hak with rfl | hlt
      · exact hwait
      · exact hall k hlt hke

theorem TakesAtOnce.request (h : TakesAtOnce ins) {a b : ℕ} (ha : intrState ins a = .idle)
    (hen : (ins a).intInEn = true) (hab : a < b) (hb : intrState ins b = .idle)
    (hbusy : ∀ k, a < k → k < b → intrState ins k ≠ .idle) :
    ∃ c e d, a < c ∧ c < e ∧ e < d ∧ d < b ∧ (ins e).intrHostAck = true ∧ ∀ k, a ≤ k → k < b →
      (accepted ins k = some .assert ↔ k = c) ∧ (accepted ins k = some .deassert ↔ k = d) := by
  have hassert : intrState ins (a + 1) = .assert := by
    rw [intrState, ha, IntrCtrlState.next, hen]
    rfl
  have hwait : intrState ins (a + 2) = .wait := by
    rw [intrState, hassert]
    rfl
  have hab' : a + 2 ≤ b := by
    rcases Nat.eq_or_lt_of_le hab with rfl | hlt
    · exact absurd (hassert.symm.trans hb) (by decide)
    · exact hlt
  obtain ⟨e, hae, heb, hack, hall⟩ := wait_until hwait hab' hb
  have hdeassert : intrState ins (e + 1) = .deassert := by
    rw [intrState, hall e hae (Nat.le_refl e), IntrCtrlState.next, hack]
    rfl
  have hidle : intrState ins (e + 2) = .idle := by
    rw [intrState, hdeassert]
    rfl
  -- the controller is ready again behind the second message
  have hbe : b = e + 2 := by
    rcases Nat.eq_or_lt_of_le heb with rfl | hlt
    · exact absurd (hdeassert.symm.trans hb) (by decide)
    · by_contra hne
      exact hbusy (e + 2) (by omega) (by omega) hidle
  refine ⟨a + 1, e, e + 1, by omega, by omega, by omega, by omega, hack, fun k hak hkb => ?_⟩
  rw [h.accepted_eq]
  obtain rfl | rfl | ⟨hlo, hhi⟩ | rfl :
      k = a ∨ k = a + 1 ∨ (a + 2 ≤ k ∧ k ≤ e) ∨ k = e + 1 := by omega
  · rw [ha]
    exact ⟨⟨(by rintro ⟨⟩), fun hk => by omega⟩, ⟨(by rintro ⟨⟩), fun hk => by omega⟩⟩
  · rw [hassert]
    exact ⟨⟨fun _ => rfl, fun _ => rfl⟩, ⟨(by rintro ⟨⟩), fun hk => by omega⟩⟩
  · rw [hall k hlo hhi]
    exact ⟨⟨(by rintro ⟨⟩), fun hk => by omega⟩, ⟨(by rintro ⟨⟩), fun hk => by omega⟩⟩
  · rw [hdeassert]
    exact ⟨⟨(by rintro ⟨⟩), fun hk => by omega⟩, ⟨fun _ => rfl, fun _ => rfl⟩⟩

end Runs

/-- **Interrupts** are what they should be in exactly the runs in which the endpoint takes every
message at once. -/
theorem interrupts_iff (ins : ℕ → IntrIn) : Interrupts ins ↔ TakesAtOnce ins := by
  constructor
  · intro h k hshown
    by_contra hrdy
    have hstays := (h.stays k hshown (by simpa using hrdy)).1
    rcases cfgInterruptN_iff.mp hshown with hst | hst
    · rw [intrRun_eq, intrState, hst] at hstays
      cases hstays
    · rw [intrRun_eq, intrState, hst] at hstays
      cases hstays
  · intro h
    refine ⟨fun k m hm => h.alternate hm, fun a b ha hen hab hb hbusy => ?_,
      fun k hshown hrdy => ?_⟩
    · exact h.request (ready_iff.mp ha) hen hab (ready_iff.mp hb)
        fun k hak hkb => not_ready_iff.mp (hbusy k hak hkb)
    · exact absurd ((h k hshown).symm.trans hrdy) (by decide)

/-- The endpoint is busy when the interrupt is asserted. -/
def busyEndpoint (k : ℕ) : IntrIn := ⟨decide (k = 0), false, decide (k = 1)⟩

theorem assert_lost : ¬ ∀ ins, Interrupts ins := by
  intro h
  have hstays := (h busyEndpoint).stays 1 rfl rfl
  exact absurd hstays.1 (by decide)

end PcieCsr

end LeapPlatforms
