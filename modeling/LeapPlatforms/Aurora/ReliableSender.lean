import LeapPlatforms.Foundation.RewindFifo
import Mathlib.Algebra.Order.Ring.Nat
import Mathlib.Data.Nat.Log
import Mathlib.Tactic.Common

/-!
# The transmit side that the reliable Aurora drivers share

The three reliable drivers (`aurora-reliable`, `aurora-reliable-aggregate-crc` and
`aurora-reliable-handshake`) frame the user's data and keep the books on outstanding frames in the
same way: data flits and sequence numbers sit in two rewind buffers, `frameTimeout` holds one
entry for every frame that was started, `ackSequenceNumberRX` one for every frame that was sent
completely, and a timeout throws away the books and rewinds the buffers. What differs is the frame
size, how a position is compared with it, and everything about checksums.

This module is that common part, with the frame size and the comparison as a parameter. Rules that
also write the link are here without their flit; the drivers add it.

## Main definitions

* `FrameCounter` — a frame size with the register arithmetic that recognises its end
* `Sender` — the registers and queues, one field for each of the source's
* `Sender.sequenceStuffer`, `passRewind`, `txHeader`, `txSend`, `timeout`, `handleAck`, `dropAck`
* `Sender.Step` — everything that can happen to a `Sender`
* `Sender.Bookkeeping` — how the queues are related

## Main results

* `Sender.Bookkeeping.step`
* `Sender.Bookkeeping.handleAck_ready` — a matching acknowledgement is never blocked
-/

namespace LeapPlatforms

namespace Aurora

/-- Frames that may be outstanding: `max_frames`. -/
def maxFrames : ℕ := 2

/-- The size of the sequence number space: `sequence_numbers`. -/
def sequenceNumbers : ℕ := 8

/-- A frame size, with the width of the registers that count positions in a frame and the constant
that a position plus one is compared with, in the register's own width. -/
structure FrameCounter where
  /-- Flits in a frame. -/
  size : ℕ
  /-- Bits of a position register. -/
  width : ℕ
  /-- The constant that marks the end, before truncation. -/
  mark : ℕ
  /-- A frame is not empty. -/
  size_pos : 0 < size
  /-- A position fits its register. -/
  size_le : size ≤ 2 ^ width
  /-- The comparison recognises the last position and no other. -/
  mark_spec : ∀ p < size, (p + 1) % 2 ^ width = mark % 2 ^ width ↔ p + 1 = size

namespace FrameCounter

/-- A position register after an increment. -/
def succ (C : FrameCounter) (p : ℕ) : ℕ := (p + 1) % 2 ^ C.width

/-- The test for the last flit of a frame. -/
def isLast (C : FrameCounter) (p : ℕ) : Bool := C.succ p == C.mark % 2 ^ C.width

theorem isLast_iff {C : FrameCounter} {p : ℕ} (hp : p < C.size) :
    C.isLast p = true ↔ p + 1 = C.size := by
  rw [isLast, beq_iff_eq, succ, C.mark_spec p hp]

theorem succ_eq {C : FrameCounter} {p : ℕ} (hp : p + 1 < C.size) : C.succ p = p + 1 :=
  Nat.mod_eq_of_lt (Nat.lt_of_lt_of_le hp C.size_le)

/-- A frame of `size` flits counted in registers of `TLog#(size)` bits and compared with
`truncateNP(size)`. -/
def ofSize (size : ℕ) (h : 0 < size) : FrameCounter where
  size := size
  width := Nat.clog 2 size
  mark := size
  size_pos := h
  size_le := Nat.le_pow_clog Nat.one_lt_two size
  mark_spec := by
    intro p hp
    have hle : size ≤ 2 ^ Nat.clog 2 size := Nat.le_pow_clog Nat.one_lt_two size
    rcases Nat.lt_or_ge (p + 1) size with hlt | hge
    · rw [Nat.mod_eq_of_lt (Nat.lt_of_lt_of_le hlt hle)]
      rcases Nat.lt_or_ge size (2 ^ Nat.clog 2 size) with hs | hs
      · rw [Nat.mod_eq_of_lt hs]
      · rw [Nat.le_antisymm hs hle, Nat.mod_self]
        omega
    · obtain rfl : p + 1 = size := by omega
      simp

end FrameCounter

/-- The transmit registers and queues of a reliable driver, for data flits `δ`. -/
structure Sender (δ : Type) where
  /-- `txDataRewindBuffer`: the user's data flits. -/
  txDataRewindBuffer : RewindFifo δ
  /-- `txSequenceRewindBuffer`: the sequence numbers of the frames to come. -/
  txSequenceRewindBuffer : RewindFifo ℕ
  /-- `sequenceNumberTX`: the next sequence number to put into that buffer. -/
  sequenceNumberTX : ℕ
  /-- `framePositionTX`: the position in the frame being sent. -/
  framePositionTX : ℕ
  /-- `frameInProgress.notEmpty`: a queue of one entry whose value is never read. -/
  frameInProgress : Bool
  /-- `frameTimeout`: the time at which each outstanding frame was started. -/
  frameTimeout : List ℕ
  /-- `ackSequenceNumberRX`: the sequence numbers of the frames sent completely. -/
  ackSequenceNumberRX : List ℕ
  /-- `ackRX`: acknowledgements received and not handled yet. -/
  ackRX : List ℕ
  /-- `timer`: a 32-bit cycle count. -/
  timer : ℕ
  deriving DecidableEq, Repr

namespace Sender

variable {δ : Type} (C : FrameCounter)

/-- The transmit side after reset. -/
def reset : Sender δ :=
  { txDataRewindBuffer := .empty, txSequenceRewindBuffer := .empty, sequenceNumberTX := 0,
    framePositionTX := 0, frameInProgress := false, frameTimeout := [], ackSequenceNumberRX := [],
    ackRX := [], timer := 0 }

/-- `rule timerCount`. -/
def timerCount (s : Sender δ) : Sender δ := { s with timer := (s.timer + 1) % 2 ^ 32 }

/-- `rule sequenceStuffer`. -/
def sequenceStuffer (s : Sender δ) : Option (Sender δ) :=
  if s.txSequenceRewindBuffer.level < maxFrames then
    some { s with
      txSequenceRewindBuffer := s.txSequenceRewindBuffer.enq s.sequenceNumberTX
      sequenceNumberTX := (s.sequenceNumberTX + 1) % sequenceNumbers }
  else none

/-- `rule passRewind`, for the flit that the marshaller offers. -/
def passRewind (d : δ) (s : Sender δ) : Option (Sender δ) :=
  if s.txDataRewindBuffer.level < maxFrames * C.size then
    some { s with txDataRewindBuffer := s.txDataRewindBuffer.enq d }
  else none

/-- `rule txHeader` without its flit: starts a frame and returns the sequence number it sends. -/
def txHeader (s : Sender δ) : Option (Sender δ × ℕ) :=
  match s.txSequenceRewindBuffer.first with
  | none => none
  | some seq =>
    if s.frameInProgress = false ∧ s.frameTimeout.length < maxFrames then
      some ({ s with
        frameInProgress := true
        framePositionTX := 0
        frameTimeout := s.frameTimeout ++ [s.timer] }, seq)
    else none

/-- `rule txSend` without its flit: takes one data flit and returns it. -/
def txSend (s : Sender δ) : Option (Sender δ × δ) :=
  match s.frameInProgress, s.txDataRewindBuffer.first with
  | true, some d =>
    if C.isLast s.framePositionTX then
      match s.txSequenceRewindBuffer.first with
      | none => none
      | some seq =>
        if s.ackSequenceNumberRX.length < maxFrames then
          some ({ s with
            txDataRewindBuffer := s.txDataRewindBuffer.deq
            frameInProgress := false
            txSequenceRewindBuffer := s.txSequenceRewindBuffer.deq
            ackSequenceNumberRX := s.ackSequenceNumberRX ++ [seq] }, d)
        else none
    else
      some ({ s with
        txDataRewindBuffer := s.txDataRewindBuffer.deq
        framePositionTX := C.succ s.framePositionTX }, d)
  | _, _ => none

/-- The body of `rule timeout`: forget every outstanding frame and rewind. -/
def timeout (s : Sender δ) : Sender δ :=
  { s with
    frameTimeout := []
    ackSequenceNumberRX := []
    frameInProgress := false
    txDataRewindBuffer := s.txDataRewindBuffer.rewind
    txSequenceRewindBuffer := s.txSequenceRewindBuffer.rewind }

/-- `rule handleAck`: an acknowledgement of the oldest outstanding frame commits it, any other is
dropped. `frameTimeout.deq` blocks the rule when that queue is empty. -/
def handleAck (s : Sender δ) : Option (Sender δ) :=
  match s.ackSequenceNumberRX, s.ackRX with
  | expected :: acks, got :: rest =>
    if expected = got then
      match s.frameTimeout with
      | [] => none
      | _ :: timeouts =>
        some { s with
          ackRX := rest
          frameTimeout := timeouts
          ackSequenceNumberRX := acks
          txDataRewindBuffer := s.txDataRewindBuffer.commit C.size
          txSequenceRewindBuffer := s.txSequenceRewindBuffer.commit 1 }
    else some { s with ackRX := rest }
  | _, _ => none

/-- `rule dropAck`: nothing is outstanding, so the acknowledgement means nothing. -/
def dropAck (s : Sender δ) : Option (Sender δ) :=
  match s.ackSequenceNumberRX, s.ackRX with
  | [], _ :: rest => some { s with ackRX := rest }
  | _, _ => none

/-! ### What each rule does -/

variable {C} {s t : Sender δ}

theorem sequenceStuffer_cases (h : s.sequenceStuffer = some t) :
    s.txSequenceRewindBuffer.level < maxFrames ∧
      t = { s with
        txSequenceRewindBuffer := s.txSequenceRewindBuffer.enq s.sequenceNumberTX
        sequenceNumberTX := (s.sequenceNumberTX + 1) % sequenceNumbers } := by
  rw [sequenceStuffer] at h
  split at h
  · next hlt => exact ⟨hlt, (Option.some.inj h).symm⟩
  · cases h

theorem passRewind_cases {d : δ} (h : s.passRewind C d = some t) :
    t = { s with txDataRewindBuffer := s.txDataRewindBuffer.enq d } := by
  rw [passRewind] at h
  split at h
  · exact (Option.some.inj h).symm
  · cases h

theorem txHeader_cases {seq : ℕ} (h : s.txHeader = some (t, seq)) :
    s.txSequenceRewindBuffer.first = some seq ∧ s.frameInProgress = false ∧
      s.frameTimeout.length < maxFrames ∧
      t = { s with
        frameInProgress := true
        framePositionTX := 0
        frameTimeout := s.frameTimeout ++ [s.timer] } := by
  rw [txHeader] at h
  split at h
  · cases h
  · next q hq =>
    split at h
    · next hc =>
      obtain ⟨rfl, rfl⟩ := Prod.mk.inj (Option.some.inj h)
      exact ⟨hq, hc.1, hc.2, rfl⟩
    · cases h

theorem txSend_cases {d : δ} (h : s.txSend C = some (t, d)) :
    s.frameInProgress = true ∧ s.txDataRewindBuffer.first = some d ∧
      ((C.isLast s.framePositionTX = false ∧
        t = { s with
          txDataRewindBuffer := s.txDataRewindBuffer.deq
          framePositionTX := C.succ s.framePositionTX }) ∨
      ∃ seq, C.isLast s.framePositionTX = true ∧ s.txSequenceRewindBuffer.first = some seq ∧
        t = { s with
          txDataRewindBuffer := s.txDataRewindBuffer.deq
          frameInProgress := false
          txSequenceRewindBuffer := s.txSequenceRewindBuffer.deq
          ackSequenceNumberRX := s.ackSequenceNumberRX ++ [seq] }) := by
  rw [txSend] at h
  split at h
  · next hp hd =>
    split at h
    · next hlast =>
      split at h
      · cases h
      · next seq hseq =>
        split at h
        · obtain ⟨rfl, rfl⟩ := Prod.mk.inj (Option.some.inj h)
          exact ⟨hp, hd, Or.inr ⟨seq, hlast, hseq, rfl⟩⟩
        · cases h
    · next hlast =>
      obtain ⟨rfl, rfl⟩ := Prod.mk.inj (Option.some.inj h)
      exact ⟨hp, hd, Or.inl ⟨by simpa using hlast, rfl⟩⟩
  · cases h

theorem handleAck_cases (h : s.handleAck C = some t) :
    ∃ expected acks got rest, s.ackSequenceNumberRX = expected :: acks ∧ s.ackRX = got :: rest ∧
      ((expected ≠ got ∧ t = { s with ackRX := rest }) ∨
      ∃ time timeouts, expected = got ∧ s.frameTimeout = time :: timeouts ∧
        t = { s with
          ackRX := rest
          frameTimeout := timeouts
          ackSequenceNumberRX := acks
          txDataRewindBuffer := s.txDataRewindBuffer.commit C.size
          txSequenceRewindBuffer := s.txSequenceRewindBuffer.commit 1 }) := by
  rw [handleAck] at h
  split at h
  · next expected acks got rest hacks hrx =>
    refine ⟨expected, acks, got, rest, hacks, hrx, ?_⟩
    split at h
    · next heq =>
      split at h
      · cases h
      · next time timeouts ht => exact Or.inr ⟨time, timeouts, heq, ht, (Option.some.inj h).symm⟩
    · next hne => exact Or.inl ⟨hne, (Option.some.inj h).symm⟩
  · cases h

theorem dropAck_cases (h : s.dropAck = some t) :
    ∃ got rest, s.ackSequenceNumberRX = [] ∧ s.ackRX = got :: rest ∧ t = { s with ackRX := rest } := by
  rw [dropAck] at h
  split at h
  · next got rest hacks hrx => exact ⟨got, rest, hacks, hrx, (Option.some.inj h).symm⟩
  · cases h

/-! ### Everything that can happen to a transmit side -/

/-- What a transmit side puts on the link: the sequence number of a header, or a data flit. -/
inductive Emission (δ : Type)
  /-- A frame is started. -/
  | header (seq : ℕ)
  /-- A data flit of the frame in progress. -/
  | data (d : δ)

variable (C)

/-- A rule of a transmit side that sends nothing. -/
inductive Quiet : Sender δ → Sender δ → Prop
  | timerCount (s : Sender δ) : Quiet s s.timerCount
  | sequenceStuffer (s t : Sender δ) : s.sequenceStuffer = some t → Quiet s t
  | passRewind (s t : Sender δ) (d : δ) : s.passRewind C d = some t → Quiet s t
  | timeout (s : Sender δ) : Quiet s s.timeout
  | handleAck (s t : Sender δ) : s.handleAck C = some t → Quiet s t
  | dropAck (s t : Sender δ) : s.dropAck = some t → Quiet s t

/-- One step of a transmit side: one of its rules, or an acknowledgement of any value from the
receive side. -/
inductive Step : Sender δ → Option (Emission δ) → Sender δ → Prop
  | quiet (s t : Sender δ) : Quiet C s t → Step s none t
  | txHeader (s t : Sender δ) (seq : ℕ) : s.txHeader = some (t, seq) →
      Step s (some (.header seq)) t
  | txSend (s t : Sender δ) (d : δ) : s.txSend C = some (t, d) → Step s (some (.data d)) t
  | ackArrives (s : Sender δ) (a : ℕ) : Step s none { s with ackRX := s.ackRX ++ [a] }

/-! ### Bookkeeping -/

/-- The data flits of the frame in progress that were sent. -/
def sentOfFrame (s : Sender δ) : ℕ := if s.frameInProgress then s.framePositionTX else 0

/-- How the queues of a transmit side are related, in every reachable state. -/
structure Bookkeeping (s : Sender δ) : Prop where
  /-- One time for every frame sent completely, and one for the frame in progress. -/
  frameTimeout_length :
    s.frameTimeout.length = s.ackSequenceNumberRX.length + if s.frameInProgress then 1 else 0
  /-- At most `max_frames` frames were started. -/
  frameTimeout_le : s.frameTimeout.length ≤ maxFrames
  /-- The data flits that a rewind would bring back. -/
  data_taken : s.txDataRewindBuffer.taken.length =
    C.size * s.ackSequenceNumberRX.length + s.sentOfFrame
  /-- The sequence numbers that a rewind would bring back are those waiting for an
  acknowledgement. -/
  sequence_taken : s.txSequenceRewindBuffer.taken = s.ackSequenceNumberRX
  /-- The position of the frame in progress lies inside the frame. -/
  position_lt : s.frameInProgress = true → s.framePositionTX < C.size
  /-- The frame in progress still has its sequence number in the buffer. -/
  sequence_pending : s.frameInProgress = true → s.txSequenceRewindBuffer.pending ≠ []

variable {C}

theorem bookkeeping_reset : Bookkeeping C (reset : Sender δ) := by
  constructor <;> simp [reset, sentOfFrame, RewindFifo.empty]

theorem Bookkeeping.txHeader (h : Bookkeeping C s) {seq : ℕ} (ht : s.txHeader = some (t, seq)) :
    Bookkeeping C t := by
  obtain ⟨hseq, hidle, hroom, rfl⟩ := txHeader_cases ht
  obtain ⟨rest, hrest⟩ := RewindFifo.first_eq_some hseq
  have hlen := h.frameTimeout_length
  have hdata := h.data_taken
  simp only [hidle, sentOfFrame, Bool.false_eq_true, if_false, Nat.add_zero] at hlen hdata
  constructor
  · simp [hlen]
  · simpa using Nat.succ_le_of_lt hroom
  · simpa [sentOfFrame] using hdata
  · exact h.sequence_taken
  · exact fun _ => C.size_pos
  · simp [hrest]

theorem Bookkeeping.txSend (h : Bookkeeping C s) {d : δ} (ht : s.txSend C = some (t, d)) :
    Bookkeeping C t := by
  obtain ⟨hbusy, hd, hcases⟩ := txSend_cases ht
  have hpos := h.position_lt hbusy
  have hlen := h.frameTimeout_length
  have hle := h.frameTimeout_le
  have hdata := h.data_taken
  have hdeq := RewindFifo.taken_deq_length hd
  simp only [hbusy, sentOfFrame, if_true] at hlen hdata
  rcases hcases with ⟨hlast, rfl⟩ | ⟨seq, hlast, hseq, rfl⟩
  · have hlt : s.framePositionTX + 1 < C.size := by
      have : ¬ s.framePositionTX + 1 = C.size := by
        rw [← FrameCounter.isLast_iff hpos, hlast]
        simp
      omega
    constructor
    · simp only [hbusy, if_true]; exact hlen
    · exact hle
    · simp only [hdeq, hdata, sentOfFrame, hbusy, if_true, FrameCounter.succ_eq hlt]
      omega
    · exact h.sequence_taken
    · intro _
      simp only [FrameCounter.succ_eq hlt]
      exact hlt
    · exact h.sequence_pending
  · have hlast' := (FrameCounter.isLast_iff hpos).mp hlast
    obtain ⟨rest, hrest⟩ := RewindFifo.first_eq_some hseq
    constructor
    · simp [hlen]
    · exact hle
    · simp only [hdeq, hdata, sentOfFrame, List.length_append, List.length_singleton,
        Bool.false_eq_true, if_false]
      rw [Nat.mul_add]
      omega
    · simp [RewindFifo.deq, hrest, h.sequence_taken]
    · simp
    · simp

/-- A timeout leaves the books in order whatever they were. -/
theorem bookkeeping_timeout (s : Sender δ) : Bookkeeping C s.timeout := by
  constructor <;> simp [Sender.timeout, sentOfFrame, RewindFifo.rewind]

theorem Bookkeeping.handleAck (h : Bookkeeping C s) (ht : s.handleAck C = some t) :
    Bookkeeping C t := by
  obtain ⟨expected, acks, got, rest, hacks, hrx, hcases⟩ := handleAck_cases ht
  rcases hcases with ⟨_, rfl⟩ | ⟨time, timeouts, _, htime, rfl⟩
  · exact { h with }
  · have hlen := h.frameTimeout_length
    have hle := h.frameTimeout_le
    have hdata := h.data_taken
    have hseq := h.sequence_taken
    simp only [hacks, htime, List.length_cons, Nat.mul_add, Nat.mul_one] at hlen hle hdata
    constructor
    · show timeouts.length = acks.length + if s.frameInProgress then 1 else 0
      omega
    · show timeouts.length ≤ maxFrames
      omega
    · rw [RewindFifo.taken_commit_length]
      show s.txDataRewindBuffer.taken.length - C.size = C.size * acks.length + s.sentOfFrame
      omega
    · simp [RewindFifo.commit, hseq, hacks]
    · exact h.position_lt
    · exact h.sequence_pending

theorem Bookkeeping.quiet (h : Bookkeeping C s) (hq : Quiet C s t) : Bookkeeping C t := by
  cases hq with
  | timerCount => exact { h with }
  | sequenceStuffer _ ht =>
    obtain ⟨_, rfl⟩ := sequenceStuffer_cases ht
    exact { h with sequence_pending := fun _ => by simp [RewindFifo.enq] }
  | passRewind _ d ht =>
    obtain rfl := passRewind_cases ht
    exact { h with }
  | timeout => exact bookkeeping_timeout s
  | handleAck _ ht => exact h.handleAck ht
  | dropAck _ ht =>
    obtain ⟨got, rest, _, _, rfl⟩ := dropAck_cases ht
    exact { h with }

/-- **Every step of a transmit side keeps the books in order.** -/
theorem Bookkeeping.step (h : Bookkeeping C s) {e : Option (Emission δ)} (hstep : Step C s e t) :
    Bookkeeping C t := by
  cases hstep with
  | quiet _ hq => exact h.quiet hq
  | txHeader _ seq ht => exact h.txHeader ht
  | txSend _ d ht => exact h.txSend ht
  | ackArrives a => exact { h with }

/-- An acknowledgement that matches is always handled: `frameTimeout` has an entry. -/
theorem Bookkeeping.handleAck_ready (h : Bookkeeping C s) {expected : ℕ} {acks rest : List ℕ}
    (hacks : s.ackSequenceNumberRX = expected :: acks) (hrx : s.ackRX = expected :: rest) :
    s.handleAck C = some { s with
      ackRX := rest
      frameTimeout := s.frameTimeout.tail
      ackSequenceNumberRX := acks
      txDataRewindBuffer := s.txDataRewindBuffer.commit C.size
      txSequenceRewindBuffer := s.txSequenceRewindBuffer.commit 1 } := by
  have hlen := h.frameTimeout_length
  cases htime : s.frameTimeout with
  | nil =>
    simp only [htime, hacks, List.length_nil, List.length_cons] at hlen
    omega
  | cons time timeouts => simp [Sender.handleAck, hacks, hrx, htime]

/-- What a commit gives up was sent as whole frames. -/
theorem Bookkeeping.size_le_taken (h : Bookkeeping C s) {expected : ℕ} {acks : List ℕ}
    (hacks : s.ackSequenceNumberRX = expected :: acks) :
    C.size ≤ s.txDataRewindBuffer.taken.length := by
  have hdata := h.data_taken
  simp only [hacks, List.length_cons, Nat.mul_add, Nat.mul_one] at hdata
  omega

end Sender

end Aurora

end LeapPlatforms
