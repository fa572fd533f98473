import LeapPlatforms.Foundation.Scan

/-!
# `leap-fpga-ctrl`: the reservation file

Each board has a text file with one line: the user who has reserved it, the state it is in, and
the signature of what it was last programmed with. `changeCurrentReservation` reads the line,
judges the request against it, and rewrites the file; this module has the line and the judgement,
both without effects. What a text that no invocation wrote reads as is defined as well: too few
fields, or a state that does not exist, read as a board that is free.

## Main definitions

* `Uid`, `FpgaState`
* `Scanned`, `scanReservation`, `printReservation`
* `Verdict`, `judge`

## Main results

* `scanReservation_print` — what is printed is read back
* `judge_update`, `judge_refused_true`, `judge_unavailable` — what each verdict says of the
  reservation it was passed on
-/

namespace LeapPlatforms

namespace LeapFpgaCtrl

open Scan

/-- `uid_t`. -/
abbrev Uid := BitVec 32

/-- `FPGA_STATE_T`, without the end marker `STATE_LAST`. -/
inductive FpgaState
  | free
  | reserved
  | program
  | active
  | inactive
  | reset
  deriving DecidableEq, Repr

namespace FpgaState

/-- The value of the enumerator. -/
def code : FpgaState → ℕ
  | free => 0
  | reserved => 1
  | program => 2
  | active => 3
  | inactive => 4
  | reset => 5

/-- The state with the value `n`; from `STATE_LAST` on there is none. -/
def ofCode : ℕ → Option FpgaState
  | 0 => some free
  | 1 => some reserved
  | 2 => some program
  | 3 => some active
  | 4 => some inactive
  | 5 => some reset
  | _ => none

@[simp] theorem ofCode_code (s : FpgaState) : ofCode s.code = some s := by
  cases s <;> rfl

/-- `state_print` -/
def print : FpgaState → String
  | free => "Free"
  | reserved => "Reserved"
  | program => "Programming"
  | active => "Active"
  | inactive => "Inactive (reserved)"
  | reset => "Unknown"

end FpgaState

/-! ## The line -/

/-- The `int` that `%d` stores: the number is first a `long`, at whose ends it stops. -/
def toInt32 (z : ℤ) : BitVec 32 :=
  BitVec.ofInt 32 (max (-2 ^ 63) (min z (2 ^ 63 - 1)))

/-- What reading a reservation file gives. -/
structure Scanned where
  /-- How many fields matched. -/
  nFields : ℕ
  owner : Uid
  oldState : FpgaState
  /-- Empty unless all three fields matched. -/
  signature : Text
  deriving DecidableEq

/-- The width of the signature field, one less than the array that holds it. -/
def signatureWidth : ℕ := 511

/-- `fscanf(lf, "%d %d %511s", &owner, &oldState, signature)`, and the test that follows it. The
state is an unsigned value, so a negative one is past `STATE_LAST` as well. -/
def scanReservation (t : Text) : Scanned :=
  match scanInt t with
  | none => ⟨0, 0, .free, []⟩
  | some (owner, t) =>
    match scanInt t with
    | none => ⟨1, 0, .free, []⟩
    | some (state, t) =>
      let nFields := if (scanWord signatureWidth t).isSome then 3 else 2
      let signature := (scanWord signatureWidth t).getD []
      match FpgaState.ofCode (toInt32 state).toNat with
      | none => ⟨nFields, 0, .free, signature⟩
      | some oldState => ⟨nFields, toInt32 owner, oldState, signature⟩

/-- `fprintf(lf, "%d %d %s\n", myUid, newState, signature)` -/
def printReservation (myUid : Uid) (newState : FpgaState) (signature : Text) : Text :=
  showInt myUid.toInt ++ ' ' :: (showInt newState.code ++ ' ' :: (signature ++ ['\n']))

theorem toInt32_toInt (u : BitVec 32) : toInt32 u.toInt = u := by
  have hlo : -2 ^ 31 ≤ u.toInt := BitVec.le_toInt u
  have hhi : u.toInt < 2 ^ 31 := BitVec.toInt_lt
  have hmid : max (-2 ^ 63) (min u.toInt (2 ^ 63 - 1)) = u.toInt := by omega
  rw [toInt32, hmid, BitVec.ofInt_toInt]

theorem toNat_toInt32_code (s : FpgaState) : (toInt32 s.code).toNat = s.code := by
  cases s <;> rfl

/-- **The line round trips.** Owner and state are read back; of the signature, its first word. -/
theorem scanReservation_print (u : Uid) (s : FpgaState) (sig : Text) :
    scanReservation (printReservation u s sig) =
      ⟨if firstWord signatureWidth sig = [] then 2 else 3, u, s, firstWord signatureWidth sig⟩ := by
  have howner := scanInt_showInt u.toInt (c := ' ') (by decide)
    (showInt s.code ++ ' ' :: (sig ++ ['\n']))
  have hstate := scanInt_showInt (s.code : ℤ) (c := ' ') (by decide) (sig ++ ['\n'])
  have hword : firstWord signatureWidth (' ' :: (sig ++ ['\n'])) = firstWord signatureWidth sig := by
    rw [firstWord_space, firstWord_append_newline]
  rw [printReservation, scanReservation, howner]
  simp only [scanInt_space, hstate, toNat_toInt32_code, FpgaState.ofCode_code, toInt32_toInt]
  by_cases hsig : firstWord signatureWidth sig = []
  · rw [scanWord_eq_none (by rw [hword, hsig]), if_pos hsig, hsig]
    rfl
  · rw [scanWord_firstWord (by rwa [hword]), hword, if_neg hsig]
    rfl

/-- The owner of the line that is written. -/
@[simp] theorem owner_print (u : Uid) (s : FpgaState) (sig : Text) :
    (scanReservation (printReservation u s sig)).owner = u := by
  rw [scanReservation_print]

/-- The state of the line that is written. -/
@[simp] theorem oldState_print (u : Uid) (s : FpgaState) (sig : Text) :
    (scanReservation (printReservation u s sig)).oldState = s := by
  rw [scanReservation_print]

/-! ## The judgement -/

/-- What `change_current_reservation` does once it has read the file. -/
inductive Verdict
  /-- It ends with an error, after it has removed the programming lock file or not. -/
  | refused (removesLock : Bool) (message : String)
  /-- It closes the file and returns 0. -/
  | unavailable
  /-- It writes the file, and removes the programming lock file afterwards or not. -/
  | update (newState : FpgaState) (signature : Text) (removesLock : Bool)
  deriving DecidableEq

/-- The signature to write. Only a board that is being programmed is given one. -/
def signatureToWrite (newState : FpgaState) (newSignature : Option Text) (old : Scanned) :
    Option Text :=
  if newState = .program then
    match newSignature with
    | some signature => if old.oldState ≠ .program then none else some (signature.take signatureWidth)
    | none => some []
  else if newState = .reset then some []
  else if old.nFields < 3 then some []
  else some old.signature

/-- The state to write: a reset leaves the board free. -/
def stateToWrite (newState : FpgaState) : FpgaState :=
  if newState = .reset then .free else newState

/-- The message for a board that is somebody else's; `pwName` is the password file. -/
def lockedBy (pwName : Uid → Option String) (owner : Uid) : String :=
  "Error - FPGA locked by " ++ (pwName owner).getD "<unknown user>"

/-- The end of the judgement: a board that is free has to be reserved before anything else. -/
def judgeUpdate (newState : FpgaState) (signature : Text) (old : Scanned) : Verdict :=
  if old.oldState = .free ∧ FpgaState.reserved.code < newState.code then
    .refused false "Error - Reservation required"
  else
    .update newState signature (old.oldState = .program ∧ newState ≠ .program)

/-- The part of `change_current_reservation` between the read and the write. -/
def judge (pwName : Uid → Option String) (myUid : Uid) (force : Bool) (newState : FpgaState)
    (newSignature : Option Text) (old : Scanned) : Verdict :=
  match signatureToWrite newState newSignature old with
  | none => .refused false "Error - Must be in PROGRAM state to add a signature"
  | some signature =>
    let newState := stateToWrite newState
    if old.oldState ≠ .free then
      if myUid = old.owner then
        -- The owner is not given the same board twice.
        if newState = .reserved then .unavailable
        else judgeUpdate newState signature old
      else if newState.code ≤ FpgaState.reserved.code then
        if force then judgeUpdate newState signature old
        else if newState = .reserved then .unavailable
        else .refused false (lockedBy pwName old.owner)
      else
        .refused (old.oldState ≠ .program ∧ newState = .program) (lockedBy pwName old.owner)
    else judgeUpdate newState signature old

variable {pwName : Uid → Option String} {myUid : Uid} {force : Bool} {newState s : FpgaState}
  {newSignature : Option Text} {old : Scanned} {sig sig' : Text} {removes : Bool} {message : String}

@[simp] theorem stateToWrite_eq_program :
    stateToWrite newState = .program ↔ newState = .program := by
  cases newState <;> decide

@[simp] theorem stateToWrite_eq_active :
    stateToWrite newState = .active ↔ newState = .active := by
  cases newState <;> decide

@[simp] theorem stateToWrite_eq_reserved :
    stateToWrite newState = .reserved ↔ newState = .reserved := by
  cases newState <;> decide

/-- Who may write what over the reservation `old`. A board is written by its owner. Without an
owner it is reserved or stays free, and with force it can be taken from its owner, but for no
more than that. -/
structure MayWrite (myUid : Uid) (force : Bool) (newState : FpgaState) (old : Scanned) : Prop where
  owner : old.oldState ≠ .free → myUid = old.owner ∨
    (force = true ∧ newState.code ≤ FpgaState.reserved.code)
  free : old.oldState = .free → newState.code ≤ FpgaState.reserved.code
  reserved : newState = .reserved → old.oldState = .free ∨ (force = true ∧ myUid ≠ old.owner)

/-- Past the test of the owner the only refusal is for want of a reservation. -/
theorem judgeUpdate_eq_update (h : judgeUpdate newState sig old = .update s sig' removes) :
    s = newState ∧ sig' = sig ∧ removes = decide (old.oldState = .program ∧ newState ≠ .program) ∧
      (old.oldState = .free → newState.code ≤ FpgaState.reserved.code) := by
  by_cases hfree : old.oldState = .free ∧ FpgaState.reserved.code < newState.code
  · rw [judgeUpdate, if_pos hfree] at h
    cases h
  · rw [judgeUpdate, if_neg hfree] at h
    obtain ⟨rfl, rfl, rfl⟩ := Verdict.update.inj h
    exact ⟨rfl, rfl, rfl, fun hold => by_contra fun hcode => hfree ⟨hold, by omega⟩⟩

/-- **Updates.** A reservation is rewritten only by those who may. -/
theorem judge_update
    (h : judge pwName myUid force newState newSignature old = .update s sig removes) :
    s = stateToWrite newState ∧ signatureToWrite newState newSignature old = some sig ∧
      removes = decide (old.oldState = .program ∧ s ≠ .program) ∧ MayWrite myUid force s old := by
  rw [judge] at h
  rcases hsig : signatureToWrite newState newSignature old with _ | signature
  · rw [hsig] at h
    cases h
  simp only [hsig] at h
  by_cases hfree : old.oldState = .free
  · rw [if_neg (by simpa using hfree)] at h
    obtain ⟨rfl, rfl, rfl, hcode⟩ := judgeUpdate_eq_update h
    exact ⟨rfl, rfl, rfl, fun hne => absurd hfree hne, hcode, fun _ => .inl hfree⟩
  rw [if_pos hfree] at h
  by_cases hown : myUid = old.owner
  · rw [if_pos hown] at h
    by_cases hres : stateToWrite newState = .reserved
    · rw [if_pos hres] at h
      cases h
    rw [if_neg hres] at h
    obtain ⟨rfl, rfl, rfl, hcode⟩ := judgeUpdate_eq_update h
    exact ⟨rfl, rfl, rfl, fun _ => .inl hown, hcode, fun hs => absurd hs hres⟩
  rw [if_neg hown] at h
  by_cases hcode : (stateToWrite newState).code ≤ FpgaState.reserved.code
  · rw [if_pos hcode] at h
    by_cases hforce : force = true
    · rw [if_pos hforce] at h
      obtain ⟨rfl, rfl, rfl, -⟩ := judgeUpdate_eq_update h
      exact ⟨rfl, rfl, rfl, fun _ => .inr ⟨hforce, hcode⟩, fun _ => hcode,
        fun _ => .inr ⟨hforce, hown⟩⟩
    · rw [if_neg hforce] at h
      split at h <;> cases h
  · rw [if_neg hcode] at h
    cases h

theorem judgeUpdate_ne_refused_true :
    judgeUpdate newState sig old ≠ .refused true message := by
  intro h
  rw [judgeUpdate] at h
  split at h <;> cases h

theorem judgeUpdate_ne_unavailable : judgeUpdate newState sig old ≠ .unavailable := by
  intro h
  rw [judgeUpdate] at h
  split at h <;> cases h

/-- **Refusals.** The programming lock file is removed by a refused request exactly when it is to
program a board that is reserved by somebody else and not being programmed. -/
theorem judge_refused_true :
    (∃ message, judge pwName myUid force newState newSignature old = .refused true message) ↔
      newState = .program ∧ newSignature = none ∧ old.oldState ≠ .free ∧
        old.oldState ≠ .program ∧ myUid ≠ old.owner := by
  constructor
  · rintro ⟨message, h⟩
    rw [judge] at h
    rcases hsig : signatureToWrite newState newSignature old with _ | signature
    · rw [hsig] at h
      cases h
    simp only [hsig] at h
    by_cases hfree : old.oldState = .free
    · rw [if_neg (by simpa using hfree)] at h
      exact absurd h judgeUpdate_ne_refused_true
    rw [if_pos hfree] at h
    by_cases hown : myUid = old.owner
    · rw [if_pos hown] at h
      split at h
      · cases h
      · exact absurd h judgeUpdate_ne_refused_true
    rw [if_neg hown] at h
    by_cases hcode : (stateToWrite newState).code ≤ FpgaState.reserved.code
    · rw [if_pos hcode] at h
      split at h
      · exact absurd h judgeUpdate_ne_refused_true
      · split at h <;> cases h
    rw [if_neg hcode] at h
    have hremoves := (Verdict.refused.inj h).1
    simp only [ne_eq, stateToWrite_eq_program, decide_eq_true_eq] at hremoves
    refine ⟨hremoves.2, ?_, hfree, hremoves.1, hown⟩
    rcases newSignature with _ | signature'
    · rfl
    · simp [signatureToWrite, hremoves] at hsig
  · rintro ⟨rfl, rfl, hfree, hprog, hown⟩
    exact ⟨lockedBy pwName old.owner, by
      simp [judge, signatureToWrite, stateToWrite, hfree, hprog, hown, FpgaState.code]⟩

/-- **Unavailable boards.** Only a request to reserve is told that a board is not available, and
only when the board is reserved. -/
theorem judge_unavailable
    (h : judge pwName myUid force newState newSignature old = .unavailable) :
    newState = .reserved ∧ old.oldState ≠ .free := by
  rw [judge] at h
  rcases hsig : signatureToWrite newState newSignature old with _ | signature
  · rw [hsig] at h
    cases h
  simp only [hsig] at h
  by_cases hfree : old.oldState = .free
  · rw [if_neg (by simpa using hfree)] at h
    exact absurd h judgeUpdate_ne_unavailable
  refine ⟨?_, hfree⟩
  by_contra hres
  have hres' : ¬ stateToWrite newState = .reserved := by simpa using hres
  rw [if_pos hfree, if_neg hres', if_neg hres'] at h
  split at h
  · exact judgeUpdate_ne_unavailable h
  · split at h
    · split at h
      · exact judgeUpdate_ne_unavailable h
      · cases h
    · cases h

end LeapFpgaCtrl

end LeapPlatforms
