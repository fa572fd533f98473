import LeapPlatforms.Aurora.ReliableSender

/-!
# What a transmit side gives up was sent whole

A transmit side commits by counting: an acknowledgement that matches gives up as many data flits
as a frame has. This module follows what the transmit side put on the link, and shows that the
flits given up are always those of one frame: sent one after the other, behind the header with the
sequence number that was acknowledged.

## Main definitions

* `Sender.SentFrames` — the books, as a list of frames that were sent

## Main results

* `Sender.SentFrames.step`
* `Sender.SentFrames.commit` — what a commit gives up
-/

namespace LeapPlatforms

namespace Aurora

namespace Sender

variable {δ : Type} {C : FrameCounter} {s t : Sender δ} {out : List (Emission δ)}

/-- A header and data flits, as they are sent. -/
def frameOf (seq : ℕ) (ds : List δ) : List (Emission δ) := .header seq :: ds.map .data

/-- The data flits that a rewind would bring back are `frames`, each sent as a whole, and `part`,
what was sent of the frame in progress. -/
structure SentFrames (C : FrameCounter) (out : List (Emission δ)) (s : Sender δ)
    (frames : List (ℕ × List δ)) (part : List δ) : Prop where
  /-- Their sequence numbers wait for an acknowledgement. -/
  acks : s.ackSequenceNumberRX = frames.map Prod.fst
  /-- Their data flits are held for a rewind. -/
  taken : s.txDataRewindBuffer.taken = (frames.map Prod.snd).flatten ++ part
  /-- They have the right size. -/
  size : ∀ f ∈ frames, f.2.length = C.size
  /-- They were sent. -/
  sent : ∀ f ∈ frames, frameOf f.1 f.2 <:+: out
  /-- The frame in progress is what was sent last. -/
  last : s.frameInProgress = true →
    ∃ seq, s.txSequenceRewindBuffer.first = some seq ∧ frameOf seq part <:+ out
  /-- Its position is the number of its flits. -/
  position : part.length = s.sentOfFrame

theorem sentFrames_reset : SentFrames C out (reset : Sender δ) [] [] := by
  constructor <;> simp [reset, sentOfFrame, RewindFifo.empty]

namespace SentFrames

variable {frames : List (ℕ × List δ)} {part : List δ}

theorem infix_append {l : List (Emission δ)} (h : l <:+: out) (e : Option (Emission δ)) :
    l <:+: out ++ e.toList :=
  h.trans (List.prefix_append _ _).isInfix

/-- A frame is started. -/
theorem txHeader (h : SentFrames C out s frames part) {seq : ℕ} (ht : s.txHeader = some (t, seq)) :
    SentFrames C (out ++ [.header seq]) t frames [] := by
  obtain ⟨hseq, hidle, _, rfl⟩ := txHeader_cases ht
  have hpart : part = [] := by
    have := h.position
    rw [sentOfFrame, hidle] at this
    simpa using this
  have htaken := h.taken
  rw [hpart] at htaken
  exact {
    acks := h.acks
    taken := htaken
    size := h.size
    sent := fun f hf => infix_append (h.sent f hf) (some _)
    last := fun _ => ⟨seq, hseq, List.suffix_append _ _⟩
    position := by simp [sentOfFrame] }

/-- A data flit is sent: the frame in progress grows, or is complete. -/
theorem txSend (h : SentFrames C out s frames part) (hb : Bookkeeping C s) {d : δ}
    (ht : s.txSend C = some (t, d)) :
    ∃ frames' part', SentFrames C (out ++ [.data d]) t frames' part' := by
  obtain ⟨hbusy, hd, hcases⟩ := txSend_cases ht
  obtain ⟨rest, hrest⟩ := RewindFifo.first_eq_some hd
  have hpos := hb.position_lt hbusy
  have hlen : part.length = s.framePositionTX := by
    rw [h.position, sentOfFrame, hbusy]
    rfl
  obtain ⟨seq, hseq, hlast⟩ := h.last hbusy
  have hgrow : frameOf seq (part ++ [d]) <:+ out ++ [.data d] := by
    obtain ⟨pre, rfl⟩ := hlast
    exact ⟨pre, by simp [frameOf]⟩
  have htaken : s.txDataRewindBuffer.deq.taken =
      (frames.map Prod.snd).flatten ++ (part ++ [d]) := by
    rw [RewindFifo.deq, hrest, h.taken]
    simp
  have hsent : ∀ f ∈ frames, frameOf f.1 f.2 <:+: out ++ [.data d] :=
    fun f hf => infix_append (h.sent f hf) (some _)
  rcases hcases with ⟨hnot, rfl⟩ | ⟨seq', hend, hseq', rfl⟩
  · have hlt : s.framePositionTX + 1 < C.size := by
      have : ¬ s.framePositionTX + 1 = C.size := by
        rw [← FrameCounter.isLast_iff hpos, hnot]
        simp
      omega
    exact ⟨frames, part ++ [d], {
      acks := h.acks
      taken := htaken
      size := h.size
      sent := hsent
      last := fun _ => ⟨seq, hseq, hgrow⟩
      position := by simp [sentOfFrame, hbusy, FrameCounter.succ_eq hlt, hlen] }⟩
  · obtain rfl : seq = seq' := Option.some.inj (hseq.symm.trans hseq')
    have hfull := (FrameCounter.isLast_iff hpos).mp hend
    refine ⟨frames ++ [(seq, part ++ [d])], [], ?_, ?_, ?_, ?_, by simp, by simp [sentOfFrame]⟩
    · simp [h.acks]
    · simp [htaken]
    · intro f hf
      rcases List.mem_append.mp hf with hf | hf
      · exact h.size f hf
      · obtain rfl := List.mem_singleton.mp hf
        simp [hlen, hfull]
    · intro f hf
      rcases List.mem_append.mp hf with hf | hf
      · exact hsent f hf
      · obtain rfl := List.mem_singleton.mp hf
        exact hgrow.isInfix

/-- **What a commit gives up** is the oldest of the frames. -/
theorem commit (h : SentFrames C out s frames part) {expected : ℕ} {acks : List ℕ}
    (hacks : s.ackSequenceNumberRX = expected :: acks) :
    ∃ ds rest, frames = (expected, ds) :: rest ∧ ds.length = C.size ∧ frameOf expected ds <:+: out ∧
      s.txDataRewindBuffer.taken.take C.size = ds ∧
      s.txDataRewindBuffer.taken.drop C.size = (rest.map Prod.snd).flatten ++ part := by
  have ha := h.acks
  rw [hacks] at ha
  cases frames with
  | nil => simp at ha
  | cons f rest =>
    obtain ⟨seq, ds⟩ := f
    obtain ⟨rfl, _⟩ := List.cons.inj ha
    have hsize : ds.length = C.size := h.size _ List.mem_cons_self
    have htaken : s.txDataRewindBuffer.taken = ds ++ ((rest.map Prod.snd).flatten ++ part) := by
      simp [h.taken]
    refine ⟨ds, rest, rfl, hsize, h.sent _ List.mem_cons_self, ?_, ?_⟩
    · rw [htaken, ← hsize, List.take_left]
    · rw [htaken, ← hsize, List.drop_left]

theorem handleAck (h : SentFrames C out s frames part) (ht : s.handleAck C = some t) :
    ∃ frames' part', SentFrames C out t frames' part' := by
  obtain ⟨expected, acks, got, rest, hacks, hrx, hcases⟩ := handleAck_cases ht
  rcases hcases with ⟨_, rfl⟩ | ⟨time, timeouts, _, htime, rfl⟩
  · exact ⟨frames, part, { h with }⟩
  · obtain ⟨ds, fs, rfl, _, _, _, hdrop⟩ := h.commit hacks
    have ha := h.acks
    rw [hacks] at ha
    exact ⟨fs, part, {
      acks := (List.cons.inj ha).2
      taken := hdrop
      size := fun f hf => h.size f (List.mem_cons_of_mem _ hf)
      sent := fun f hf => h.sent f (List.mem_cons_of_mem _ hf)
      last := h.last
      position := h.position }⟩

theorem quiet (h : SentFrames C out s frames part) (hq : Quiet C s t) :
    ∃ frames' part', SentFrames C out t frames' part' := by
  cases hq with
  | timerCount => exact ⟨frames, part, { h with }⟩
  | sequenceStuffer _ ht =>
    obtain ⟨_, rfl⟩ := sequenceStuffer_cases ht
    refine ⟨frames, part, { h with last := fun hbusy => ?_ }⟩
    obtain ⟨seq, hseq, hlast⟩ := h.last hbusy
    obtain ⟨rest, hrest⟩ := RewindFifo.first_eq_some hseq
    exact ⟨seq, by simp [RewindFifo.first, RewindFifo.enq, hrest], hlast⟩
  | passRewind _ d ht =>
    obtain rfl := passRewind_cases ht
    exact ⟨frames, part, { h with }⟩
  | timeout => exact ⟨[], [], by constructor <;> simp [timeout, sentOfFrame, RewindFifo.rewind]⟩
  | handleAck _ ht => exact h.handleAck ht
  | dropAck _ ht =>
    obtain ⟨got, rest, _, _, rfl⟩ := dropAck_cases ht
    exact ⟨frames, part, { h with }⟩

/-- **Every step keeps the frames**, with what it sends added to what was sent. -/
theorem step (h : SentFrames C out s frames part) (hb : Bookkeeping C s)
    {e : Option (Emission δ)} (hstep : Step C s e t) :
    ∃ frames' part', SentFrames C (out ++ e.toList) t frames' part' := by
  cases hstep with
  | quiet _ hq => simpa using h.quiet hq
  | txHeader _ seq ht => exact ⟨frames, [], h.txHeader ht⟩
  | txSend _ d ht => exact h.txSend hb ht
  | ackArrives a => exact ⟨frames, part, by simpa using { h with }⟩

end SentFrames

end Sender

end Aurora

end LeapPlatforms
