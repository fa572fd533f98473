import LeapPlatforms.SdramXupv2.Npi
import Mathlib.Algebra.BigOperators.Group.List.Basic

/-!
# Read data of the memory controller

A token is taken for each pop of the controller's read FIFO, and given back with the word. So the
words that are in the delay line find room in the queue. The wrapper counts the words of its last
read command down as the user gets words; it counts right when the controller has no words but those
that were asked for.

## Main definitions

* `NpiMaster.inFlight`, `Npi.TokensKept`
* `Npi.commanded`, `Npi.Counted`, `Due`

## Main results

* `reads_in_step`
* `reads_miscounted` — a word that was there before the first command
-/

namespace LeapPlatforms

namespace SdramXupv2

variable {P : Params} {s t : Npi} {r : Rule}

/-! ### Tokens -/

/-- The pops whose words did not arrive yet. -/
def NpiMaster.inFlight (P : Params) (m : NpiMaster) : ℕ :=
  (if 1 ≤ P.rdFifoLatency then m.assertPopDelay0.toNat else 0) +
    if 2 ≤ P.rdFifoLatency then m.assertPopDelay1.toNat else 0

/-- The tokens are those of the words that wait and of the words that are on their way. -/
structure Npi.TokensKept (P : Params) (s : Npi) : Prop where
  tokens : s.master.readQ.length + s.master.inFlight P = s.master.readTokenQ
  le : s.master.readTokenQ ≤ 32
  /-- There is room for a word that arrives. -/
  room : ∀ rdFifoEmpty, s.popDvalid P rdFifoEmpty = true → s.master.readQ.length < 32
  /-- No word that arrived is lost. -/
  stored : s.returned ++ s.master.readQ = s.arrived

/-- No pop is on its way before the controller is ready. -/
structure Npi.Popping (P : Params) (s : Npi) : Prop where
  tokens : s.master.readQ.length + s.master.inFlight P = s.master.readTokenQ
  le : s.master.readTokenQ ≤ 32
  started : s.master.initDone = false →
    s.master.assertPopDelay0 = false ∧ s.master.assertPopDelay1 = false
  stored : s.returned ++ s.master.readQ = s.arrived

theorem assertPop_room {rdFifoEmpty : Bool} (h : s.assertPop rdFifoEmpty = true) :
    s.master.initDone = true ∧ s.master.readTokenQ < 32 := by
  rw [Npi.assertPop, Bool.and_eq_true, Bool.and_eq_true] at h
  exact ⟨h.1.1, of_decide_eq_true h.2⟩

/-- What arrives was on its way, or was popped without a latency. -/
theorem inFlight_readFifo (rdFifoEmpty : Bool) (word : NpiReadWord) :
    (s.readFifo P rdFifoEmpty word).master.inFlight P + (s.popDvalid P rdFifoEmpty).toNat =
      s.master.inFlight P + (s.assertPop rdFifoEmpty).toNat := by
  have hle := P.rdFifoLatency_le
  rw [Npi.popDvalid, NpiMaster.inFlight, NpiMaster.inFlight, Npi.readFifo]
  dsimp only
  by_cases h0 : P.rdFifoLatency = 0
  · simp [h0]
  · by_cases h1 : P.rdFifoLatency = 1
    · simp [h1, Nat.add_comm]
    · have h2 : P.rdFifoLatency = 2 := by omega
      simp only [h2]
      simp
      omega

theorem Npi.Popping.initDone_of_popDvalid (h : s.Popping P) {rdFifoEmpty : Bool}
    (hvalid : s.popDvalid P rdFifoEmpty = true) : s.master.initDone = true := by
  by_contra hnot
  obtain ⟨h0, h1⟩ := h.started (by simpa using hnot)
  rw [Npi.popDvalid, h0, h1] at hvalid
  split_ifs at hvalid
  exact hnot (assertPop_room hvalid).1

theorem Npi.Popping.room (h : s.Popping P) {rdFifoEmpty : Bool}
    (hvalid : s.popDvalid P rdFifoEmpty = true) : s.master.readQ.length < 32 := by
  have htokens := h.tokens
  have hle := h.le
  have hflow := inFlight_readFifo (P := P) (s := s) rdFifoEmpty ⟨0, 0⟩
  rw [hvalid, Bool.toNat_true] at hflow
  cases hpop : s.assertPop rdFifoEmpty with
  | true =>
    have hroom := (assertPop_room hpop).2
    omega
  | false =>
    rw [hpop, Bool.toNat_false] at hflow
    omega

theorem Npi.Popping.readFifo (h : s.Popping P) (rdFifoEmpty : Bool) (word : NpiReadWord) :
    (s.readFifo P rdFifoEmpty word).Popping P := by
  have htokens := h.tokens
  have hflow := inFlight_readFifo (P := P) (s := s) rdFifoEmpty word
  -- what is valid is pushed
  have hpush : (s.readFifo P rdFifoEmpty word).master.readQ =
      s.master.readQ ++ if s.popDvalid P rdFifoEmpty then [word] else [] := by
    rw [Npi.readFifo]
    cases hvalid : s.popDvalid P rdFifoEmpty with
    | false => simp
    | true => simp [h.room hvalid, h.initDone_of_popDvalid hvalid]
  have harrived : (s.readFifo P rdFifoEmpty word).arrived =
      s.arrived ++ if s.popDvalid P rdFifoEmpty then [word] else [] := by
    rw [Npi.readFifo]
    cases hvalid : s.popDvalid P rdFifoEmpty with
    | false => simp
    | true => simp [h.initDone_of_popDvalid hvalid]
  have htokens' : (s.readFifo P rdFifoEmpty word).master.readTokenQ =
      s.master.readTokenQ + (s.assertPop rdFifoEmpty).toNat := by
    rw [Npi.readFifo]
    cases s.assertPop rdFifoEmpty <;> rfl
  have hlength : (if s.popDvalid P rdFifoEmpty then [word] else []).length =
      (s.popDvalid P rdFifoEmpty).toNat := by
    cases s.popDvalid P rdFifoEmpty <;> rfl
  refine ⟨?_, ?_, fun hinit => ?_, ?_⟩
  · rw [hpush, htokens', List.length_append, hlength]
    omega
  · rw [htokens']
    cases hpop : s.assertPop rdFifoEmpty with
    | false => exact h.le
    | true => exact (assertPop_room hpop).2
  · have hinit' : s.master.initDone = false := hinit
    refine ⟨?_, (h.started hinit').1⟩
    change s.assertPop rdFifoEmpty = false
    rw [Npi.assertPop, hinit']
    rfl
  · change s.returned ++ (s.readFifo P rdFifoEmpty word).master.readQ = _
    rw [hpush, harrived, ← List.append_assoc, h.stored]

/-- Only the clock of the read FIFO and the user change what is kept. -/
theorem Npi.Popping.step (h : s.Popping P) (hr : Step P s r t) : t.Popping P := by
  cases hr with
  | readFifo rdFifoEmpty word => exact h.readFifo rdFifoEmpty word
  | @readRsp word rest hq htoken =>
    have htokens := h.tokens
    have hle := h.le
    have hstored := h.stored
    rw [hq, List.length_cons] at htokens
    rw [hq] at hstored
    refine ⟨?_, (Nat.sub_le _ _).trans hle, h.started, ?_⟩
    · change rest.length + s.master.inFlight P = s.master.readTokenQ - 1
      omega
    · rw [← hstored, List.append_assoc]
      rfl
  | initDoneSet => exact ⟨h.tokens, h.le, fun hinit => Bool.noConfusion (show true = false from hinit),
    h.stored⟩
  | _ => exact ⟨h.tokens, h.le, h.started, h.stored⟩

theorem Npi.Popping.kept (h : s.Popping P) : s.TokensKept P :=
  ⟨h.tokens, h.le, fun _ hvalid => h.room hvalid, h.stored⟩

theorem popping_start (xferCount : ℕ) : Npi.Popping P { master := { xferCount } } := by
  refine ⟨?_, Nat.zero_le _, fun _ => ⟨rfl, rfl⟩, rfl⟩
  rw [NpiMaster.inFlight]
  split_ifs <;> rfl

theorem popping_of_reachable {C : Npi → Rule → Prop} (hs : (npi P C).Reachable s) :
    s.Popping P := by
  refine TransitionSystem.Reachable.invariant (P := fun s => s.Popping P) ?_ ?_ hs
  · rintro s ⟨xferCount, rfl⟩
    exact popping_start xferCount
  · rintro s t h ⟨r, -, -, hr⟩
    exact h.step (rule_step hr)

/-! ### Words that are outstanding -/

/-- The words that a command reads. -/
def NpiCommand.readWords : NpiCommand → ℕ
  | .readCommand _ size => size.words
  | .writeCommand _ _ _ => 0

/-- The words that were asked for. -/
def Npi.commanded (s : Npi) : ℕ := (s.commands.map NpiCommand.readWords).sum

/-- A word is popped when one that was asked for is missing. -/
def Due (s : Npi) : Rule → Prop
  | .readFifo rdFifoEmpty _ => s.assertPop rdFifoEmpty = true → s.popped < s.commanded
  | _ => True

instance (s : Npi) : ∀ r, Decidable (Due s r)
  | .readFifo _ _ => inferInstanceAs (Decidable (_ → _))
  | .burstReq _ | .handleRead | .handleWrite | .readRsp | .writeData _ | .initDoneSet
  | .processCommandFifo _ | .processWriteFifo _ | .sendWriteCmd _ | .sendWriteCmdSpecial _
  | .processWriteFifoSpecial _ => inferInstanceAs (Decidable True)

/-- The words that were asked for and that the user has not got are counted. -/
structure Npi.Counted (P : Params) (s : Npi) : Prop where
  outstanding : s.wrapper.outstandingReqs + s.returned.length = s.commanded
  /-- The count does not go below zero. -/
  positive : s.readRsp P ≠ none → 0 < s.wrapper.outstandingReqs
  /-- A read command is issued when the words of the one before are there. -/
  finished : s.handleRead P ≠ none → s.returned.length = s.commanded

/-- What is asked for, popped and got. -/
structure Npi.Counting (s : Npi) : Prop where
  outstanding : s.wrapper.outstandingReqs + s.returned.length = s.commanded
  le : s.wrapper.outstandingReqs ≤ 32
  popped : s.returned.length + s.master.readTokenQ = s.popped
  due : s.popped ≤ s.commanded

theorem commanded_append {l : List NpiCommand} {c : NpiCommand} :
    ((l ++ [c]).map NpiCommand.readWords).sum =
      (l.map NpiCommand.readWords).sum + c.readWords := by
  rw [List.map_append, List.sum_append, List.map_singleton, List.sum_singleton]

/-- The count of `w` bits goes down by one. -/
theorem countdown {n : ℕ} (hpos : 0 < n) (hle : n ≤ 32) :
    (n + (2 ^ countBits P - 1)) % 2 ^ countBits P = n - 1 := by
  have hlt := maxBurstSize_lt P
  have hge := P.maxBurstSize_ge
  rw [show n + (2 ^ countBits P - 1) = n - 1 + 2 ^ countBits P by omega, Nat.add_mod_right,
    Nat.mod_eq_of_lt (by omega)]

theorem Npi.Counting.outstanding_pos (h : s.Counting) (htoken : 0 < s.master.readTokenQ) :
    0 < s.wrapper.outstandingReqs := by
  have houtstanding := h.outstanding
  have hpopped := h.popped
  have hdue := h.due
  omega

theorem Npi.Counting.step (h : s.Counting) (hr : Step P s r t) (hdue : Due s r) : t.Counting := by
  have houtstanding := h.outstanding
  have hle := h.le
  have hpopped := h.popped
  have hpoppedle := h.due
  cases hr with
  | @handleRead b hread hpos hnone hb =>
    have hcommanded : (s.commands ++ [NpiCommand.readCommand (8 * s.wrapper.address) b]
        |>.map NpiCommand.readWords).sum = s.commanded + b.words := commanded_append
    refine ⟨?_, b.words_le, hpopped, ?_⟩
    · change b.words + s.returned.length = (List.map _ (s.commands ++ [_])).sum
      rw [hcommanded]
      omega
    · change s.popped ≤ (List.map _ (s.commands ++ [_])).sum
      rw [hcommanded]
      omega
  | @handleWrite b hwrite hpos hb =>
    have hcommanded : (s.commands ++ [NpiCommand.writeCommand (8 * s.wrapper.address) b false]
        |>.map NpiCommand.readWords).sum = s.commanded := commanded_append
    refine ⟨?_, hle, hpopped, ?_⟩
    · exact houtstanding.trans hcommanded.symm
    · exact hpoppedle.trans hcommanded.ge
  | @readRsp word rest hq htoken =>
    have hpos := h.outstanding_pos htoken
    have hdown := countdown (P := P) hpos hle
    refine ⟨?_, ?_, ?_, hpoppedle⟩
    · change (s.wrapper.outstandingReqs + (2 ^ countBits P - 1)) % 2 ^ countBits P +
        (s.returned ++ [word]).length = s.commanded
      rw [hdown, List.length_append, List.length_singleton]
      omega
    · change (s.wrapper.outstandingReqs + (2 ^ countBits P - 1)) % 2 ^ countBits P ≤ 32
      omega
    · change (s.returned ++ [word]).length + (s.master.readTokenQ - 1) = s.popped
      rw [List.length_append, List.length_singleton]
      omega
  | readFifo rdFifoEmpty word =>
    refine ⟨houtstanding, hle, ?_, ?_⟩
    · change s.returned.length + (s.master.readTokenQ + if s.assertPop rdFifoEmpty then 1 else 0) =
        s.popped + if s.assertPop rdFifoEmpty then 1 else 0
      omega
    · change s.popped + (if s.assertPop rdFifoEmpty then 1 else 0) ≤ s.commanded
      split_ifs with hpop
      · exact hdue hpop
      · exact hpoppedle
  | _ => exact ⟨houtstanding, hle, hpopped, hpoppedle⟩

theorem Npi.Counting.counted (h : s.Counting) : s.Counted P where
  outstanding := h.outstanding
  positive hrsp := by
    obtain ⟨t, ht⟩ := Option.ne_none_iff_exists'.mp hrsp
    rw [Npi.readRsp] at ht
    split at ht
    · cases ht
    · split_ifs at ht with htoken
      exact h.outstanding_pos htoken
  finished hread := by
    obtain ⟨t, ht⟩ := Option.ne_none_iff_exists'.mp hread
    rw [Npi.handleRead] at ht
    split_ifs at ht with hguard
    have houtstanding := h.outstanding
    rw [hguard.2.2.1] at houtstanding
    omega

theorem counting_of_reachable (hs : (npi P Due).Reachable s) : s.Counting := by
  refine TransitionSystem.Reachable.invariant (P := fun s => s.Counting) ?_ ?_ hs
  · rintro s ⟨xferCount, rfl⟩
    exact ⟨rfl, Nat.zero_le _, rfl, le_rfl⟩
  · rintro s t h ⟨r, -, hdue, hr⟩
    exact h.step (rule_step hr) hdue

/-- Tokens and words stay in step in every run; the count of the wrapper is right in every run in
which no word is popped but those that were asked for. -/
theorem reads_in_step :
    (∀ s, (npi P fun _ _ => True).Reachable s → s.TokensKept P) ∧
      ∀ s, (npi P Due).Reachable s → s.TokensKept P ∧ s.Counted P := by
  refine ⟨fun s hs => (popping_of_reachable hs).kept, fun s hs => ?_⟩
  exact ⟨(popping_of_reachable hs).kept, (counting_of_reachable hs).counted⟩

/-! ### Sample runs -/

/-- A word is asked for, popped and got. -/
theorem reads_in_step_oneWord : ∃ s : Npi, s.commands = [.readCommand 40 .burst1] ∧
    s.returned = [⟨7, 0⟩] ∧ s.TokensKept sampleParams ∧ s.Counted sampleParams := by
  have hran : (ran sampleParams Due [.initDoneSet, .burstReq (.readReq ⟨5, 1⟩), .handleRead,
      .readFifo false ⟨0, 0⟩, .readFifo true ⟨7, 0⟩, .readRsp]).map
        (fun s => (s.commands, s.returned)) = some ([.readCommand 40 .burst1], [⟨7, 0⟩]) := by
    decide
  obtain ⟨s, hs, hresult⟩ := Option.map_eq_some_iff.mp hran
  obtain ⟨hcommands, hreturned⟩ := Prod.mk.inj hresult
  exact ⟨s, hcommands, hreturned, reads_in_step.2 s (ran_reachable _ hs)⟩

/-- The read FIFO has a word that nobody asked for. -/
theorem reads_miscounted :
    ¬ ∀ s, (npi sampleParams fun _ _ => True).Reachable s → s.Counted sampleParams := by
  intro hall
  have hran : (ran sampleParams (fun _ _ => True) [.initDoneSet, .readFifo false ⟨0, 0⟩,
      .readFifo true ⟨7, 0⟩, .readRsp]).map
        (fun s => (s.wrapper.outstandingReqs, s.commanded)) = some (63, 0) := by
    decide
  obtain ⟨s, hs, hresult⟩ := Option.map_eq_some_iff.mp hran
  obtain ⟨houtstanding, hcommanded⟩ := Prod.mk.inj hresult
  have hcount := (hall s (ran_reachable _ hs)).outstanding
  rw [houtstanding, hcommanded] at hcount
  omega

end SdramXupv2

end LeapPlatforms
