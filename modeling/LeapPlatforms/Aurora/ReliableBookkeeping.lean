import LeapPlatforms.Aurora.ReliableDelivery
import LeapPlatforms.Aurora.SentFrames

/-!
# The sender's books of the reliable driver

One endpoint alone, with a link that may bring it anything: every rule in every order, and any
flit at any time, from a peer that need not follow the protocol. The books on outstanding frames
are in order in every reachable state, and what an acknowledgement commits was sent as one frame.

## Main definitions

* `Reliable.emissionOf` — a flit, as part of a frame
* `Reliable.alone` — the endpoint on an arbitrary link, with everything it sent

## Main results

* `sender_bookkeeping`
-/

namespace LeapPlatforms

namespace Aurora

namespace Reliable

open LossyLink (Flit Kind)
open Sender (Emission SentFrames frameOf)

variable {P : Params}

/-- A flit that was sent, as part of a frame. -/
def emissionOf (f : Raw P) : Option (Emission (Data P)) :=
  match kind f with
  | .header => some (.header (sequenceOf f))
  | .payload => some (.data (dataOf f))
  | .control => none

variable (P) in
/-- An endpoint on a link that may bring anything, and the flits it sent. -/
def alone : TransitionSystem (Endpoint P × List (Raw P)) where
  init s := s = (Endpoint.reset P, [])
  step s t :=
    (∃ r out, rule r s.1 = some (t.1, out) ∧ t.2 = s.2 ++ out.toList) ∨
      ∃ x, s.1.rxIntake x = some t.1 ∧ t.2 = s.2

theorem alone_rule {e e' : Endpoint P} {sent : List (Raw P)} {r : Rule P} {out : Option (Raw P)}
    (h : (alone P).Reachable (e, sent)) (hr : rule r e = some (e', out)) :
    (alone P).Reachable (e', sent ++ out.toList) :=
  h.step (Or.inl ⟨r, out, hr, rfl⟩)

/-- The sequence numbers in use are sequence numbers. -/
structure Numbered (s : Sender (Data P)) : Prop where
  /-- The next one. -/
  next : s.sequenceNumberTX < 8
  /-- Those of the frames to come, and of those that may have to be sent again. -/
  stream : ∀ n ∈ s.txSequenceRewindBuffer.stream, n < 8

variable {s t : Sender (Data P)} {e e' : Endpoint P}

theorem Numbered.of_stream (h : Numbered s) (hn : t.sequenceNumberTX = s.sequenceNumberTX)
    (hstream : t.txSequenceRewindBuffer.stream = s.txSequenceRewindBuffer.stream) : Numbered t :=
  ⟨hn ▸ h.next, hstream ▸ h.stream⟩

theorem Numbered.step (h : Numbered s) {em : Option (Emission (Data P))}
    (hstep : Sender.Step frameCounter s em t) : Numbered t := by
  cases hstep with
  | quiet _ hq =>
    cases hq with
    | timerCount => exact { h with }
    | sequenceStuffer _ ht =>
      obtain ⟨_, rfl⟩ := Sender.sequenceStuffer_cases ht
      refine ⟨Nat.mod_lt _ (by decide), fun n hn => ?_⟩
      rw [RewindFifo.stream_enq] at hn
      rcases List.mem_append.mp hn with hn | hn
      · exact h.stream n hn
      · rw [List.mem_singleton.mp hn]
        exact h.next
    | passRewind _ d ht =>
      obtain rfl := Sender.passRewind_cases ht
      exact { h with }
    | timeout => exact h.of_stream rfl (RewindFifo.stream_rewind _)
    | handleAck _ ht =>
      obtain ⟨_, _, _, _, _, _, ⟨_, rfl⟩ | ⟨_, _, _, _, rfl⟩⟩ := Sender.handleAck_cases ht
      · exact { h with }
      · exact h.of_stream rfl (RewindFifo.stream_commit _ _)
    | dropAck _ ht =>
      obtain ⟨_, _, _, _, rfl⟩ := Sender.dropAck_cases ht
      exact { h with }
  | txHeader _ seq ht =>
    obtain ⟨_, _, _, rfl⟩ := Sender.txHeader_cases ht
    exact { h with }
  | txSend _ d ht =>
    obtain ⟨_, _, ⟨_, rfl⟩ | ⟨_, _, _, rfl⟩⟩ := Sender.txSend_cases ht
    · exact { h with }
    · exact h.of_stream rfl (RewindFifo.stream_deq _)
  | ackArrives a => exact { h with }

theorem Numbered.header_lt (h : Numbered s) {seq : ℕ} (ht : s.txHeader = some (t, seq)) :
    seq < 8 := by
  obtain ⟨hseq, _⟩ := Sender.txHeader_cases ht
  obtain ⟨rest, hrest⟩ := RewindFifo.first_eq_some hseq
  exact h.stream seq (by simp [RewindFifo.stream, hrest])

/-- **The transmit side moves with the endpoint.** A rule of the endpoint leaves its transmit side
alone or is a step of it, and what it sends is what that step sends. -/
theorem tx_step (hn : Numbered e.tx) {r : Rule P} {out : Option (Raw P)}
    (h : rule r e = some (e', out)) :
    (e'.tx = e.tx ∧ out.toList.filterMap emissionOf = []) ∨
      ∃ em, Sender.Step frameCounter e.tx em e'.tx ∧
        out.toList.filterMap emissionOf = em.toList := by
  rcases rule_cases h with ⟨rfl, _, hs⟩ | ⟨f, rfl, _, ht | ht | ht⟩ | ⟨rfl, _, ht⟩
  · rcases hs.tx with htx | hq
    · exact Or.inl ⟨htx, rfl⟩
    · exact Or.inr ⟨none, .quiet _ _ hq, rfl⟩
  · unfold Endpoint.txHeader at ht
    split at ht
    · obtain ⟨⟨tx, seq⟩, htx, heq⟩ := Option.map_eq_some_iff.mp ht
      obtain ⟨rfl, rfl⟩ := Prod.mk.inj heq
      refine Or.inr ⟨some (.header seq), .txHeader _ _ seq htx, ?_⟩
      simp [emissionOf, kind_header, sequenceOf_control _ _ (hn.header_lt htx)]
    · cases ht
  · obtain ⟨⟨tx, d⟩, htx, heq⟩ := Option.map_eq_some_iff.mp ht
    obtain ⟨rfl, rfl⟩ := Prod.mk.inj heq
    refine Or.inr ⟨some (.data d), .txSend _ _ d htx, ?_⟩
    simp [emissionOf, kind_payload]
  · obtain ⟨a, rest, _, rfl, rfl⟩ := Endpoint.txFC_cases ht
    exact Or.inl ⟨rfl, by simp [emissionOf, kind_ack]⟩
  · obtain ⟨x, rest, _, ⟨_, hpay⟩ | ⟨_, rfl⟩ | ⟨_, rfl | ⟨_, _, rfl⟩⟩⟩ := Endpoint.rxDemarsh_cases ht
    · obtain ⟨_, rfl⟩ | ⟨_, _, rfl⟩ := Endpoint.rxPayload_cases hpay <;> exact Or.inl ⟨rfl, rfl⟩
    · exact Or.inl ⟨rfl, rfl⟩
    · exact Or.inl ⟨rfl, rfl⟩
    · exact Or.inr ⟨none, .ackArrives _ _, rfl⟩

/-- The books of an endpoint that sent the flits `sent`. -/
structure Books (tx : Sender (Data P)) (sent : List (Raw P)) : Prop where
  /-- The queues agree. -/
  books : tx.Bookkeeping frameCounter
  /-- Sequence numbers are below eight. -/
  numbered : Numbered tx
  /-- The flits held for a rewind were sent as frames. -/
  frames : ∃ frames part, SentFrames frameCounter (sent.filterMap emissionOf) tx frames part

theorem Books.step {sent : List (Raw P)} (h : Books e.tx sent) {r : Rule P} {out : Option (Raw P)}
    (hr : rule r e = some (e', out)) : Books e'.tx (sent ++ out.toList) := by
  obtain ⟨hb, hn, frames, part, hf⟩ := h
  rcases tx_step hn hr with ⟨htx, hout⟩ | ⟨em, hstep, hout⟩
  · refine ⟨htx ▸ hb, htx ▸ hn, frames, part, ?_⟩
    rw [List.filterMap_append, hout, List.append_nil, htx]
    exact hf
  · refine ⟨hb.step hstep, hn.step hstep, ?_⟩
    rw [List.filterMap_append, hout]
    exact hf.step hb hstep

theorem books_of_reachable {s : Endpoint P × List (Raw P)} (h : (alone P).Reachable s) :
    Books s.1.tx s.2 := by
  refine h.invariant (P := fun s => Books s.1.tx s.2) ?_ ?_
  · rintro _ rfl
    refine ⟨Sender.bookkeeping_reset, ⟨Nat.zero_lt_succ _, ?_⟩, [], [], Sender.sentFrames_reset⟩
    intro n hn
    cases hn
  · rintro ⟨e, sent⟩ ⟨e', sent'⟩ hbooks
      (⟨r, out, hr, rfl : sent' = _⟩ | ⟨x, hin, rfl : sent' = sent⟩)
    · exact hbooks.step hr
    · obtain rfl := Endpoint.rxIntake_cases hin
      exact hbooks

end Reliable

end Aurora

end LeapPlatforms
