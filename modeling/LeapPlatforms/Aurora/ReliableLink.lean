import LeapPlatforms.Aurora.SequenceWindow
import LeapPlatforms.Foundation.GoBackN
import LeapPlatforms.Foundation.LossyLink

/-!
# One direction of a reliable link, read as go-back-N

A reliable driver's data travels from the transmit side of one endpoint over its link to the
receive side of the other, and acknowledgements travel back. `Reads` says how what lies between
(the transmit side, the flits on their way, the flits on the way back and the acknowledgements the
receiver has yet to send) is read as a state of `GoBackN`, and this module proves, rule by rule,
that what the transmit side and the links do are steps of that protocol.

What a flit looks like is a parameter (`Reading`), and so is the receive side: the lemmas here
leave the protocol's receiver alone (`SameReceiver`), and each driver connects its own.

## Main definitions

* `Reading` — how the flits of a driver are read
* `Sends`, `Carries`, `Returns` — transmit side, link and way back
* `Reads` — the three together
* `SameReceiver`

## Main results

* `Reads.quiet`, `Reads.txHeader`, `Reads.txSend` — the transmit side's rules
* `Reads.lose`, `Reads.loseBack` — the links
* `Reads.commit_safe` — what a matching acknowledgement commits
-/

namespace LeapPlatforms

namespace Aurora

open LossyLink (Flit Kind)
open GoBackN (State Token)

/-- How the flits `φ` of a driver are read. -/
structure Reading (φ δ : Type) where
  /-- Header, payload or neither. -/
  kind : φ → Kind
  /-- The sequence number of an acknowledgement. -/
  ackOf : φ → Option ℕ
  /-- Whether a flit is what a token looks like on the link. -/
  encodes : φ → Token δ → Prop
  /-- Headers encode the start of a frame. -/
  header_of_encodes : ∀ f t, kind f = .header → encodes f t → ∃ n, t = .header n
  /-- Payload flits encode items. -/
  item_of_encodes : ∀ f t, kind f = .payload → encodes f t → ∃ n j d, t = .item n j d

variable {φ δ : Type} {R : Reading φ δ} {C : FrameCounter}

/-! ### The transmit side -/

/-- A transmit side is read as the sender of `g`. -/
structure Sends (C : FrameCounter) (s : Sender δ) (g : State δ) : Prop where
  /-- The books are in order. -/
  books : s.Bookkeeping C
  /-- What the sender was given is the stream of the data buffer. -/
  source : g.source = s.txDataRewindBuffer.stream
  /-- What was committed is whole frames. -/
  base : s.txDataRewindBuffer.committed.length = C.size * g.base
  /-- The frames waiting for an acknowledgement are consecutive. -/
  outstanding : s.ackSequenceNumberRX = wraps g.base g.outstanding
  /-- A frame is being sent exactly when one is in progress. -/
  sending : g.sending = if s.frameInProgress then some s.framePositionTX else none
  /-- The next sequence numbers are those of the next frames. -/
  pending : s.txSequenceRewindBuffer.pending =
    wraps g.frame s.txSequenceRewindBuffer.pending.length
  /-- And so is the number that goes into the buffer next. -/
  next : s.sequenceNumberTX = wrap (g.frame + s.txSequenceRewindBuffer.pending.length)

namespace Sends

variable {s t : Sender δ} {g : State δ}

theorem outstanding_length (h : Sends C s g) : s.ackSequenceNumberRX.length = g.outstanding := by
  rw [h.outstanding, wraps_length]

/-- The place in the source of the next data flit to send. -/
theorem source_of_first (h : Sends C s g) {d : δ} (hd : s.txDataRewindBuffer.first = some d) :
    g.source[C.size * g.frame + s.sentOfFrame]? = some d := by
  have hidx : C.size * g.frame + s.sentOfFrame =
      s.txDataRewindBuffer.committed.length + s.txDataRewindBuffer.taken.length := by
    rw [h.base, h.books.data_taken, h.outstanding_length, State.frame]
    ring
  rw [hidx, h.source]
  exact RewindFifo.stream_getElem?_of_first hd

/-- The next sequence number is that of the next frame. -/
theorem wrap_of_first (h : Sends C s g) {seq : ℕ} (hs : s.txSequenceRewindBuffer.first = some seq) :
    seq = wrap g.frame ∧ ∃ n, s.txSequenceRewindBuffer.pending = seq :: wraps (g.frame + 1) n := by
  obtain ⟨rest, hrest⟩ := RewindFifo.first_eq_some hs
  have hp := h.pending
  rw [hrest, List.length_cons, wraps_succ] at hp
  obtain ⟨hseq, htail⟩ := List.cons.inj hp
  exact ⟨hseq, rest.length, by rw [hrest, ← htail]⟩

theorem timerCount (h : Sends C s g) : Sends C s.timerCount g :=
  { h with books := h.books.quiet (.timerCount s) }

theorem sequenceStuffer (h : Sends C s g) (ht : s.sequenceStuffer = some t) : Sends C t g := by
  have hbooks := h.books.quiet (.sequenceStuffer s t ht)
  obtain ⟨_, rfl⟩ := Sender.sequenceStuffer_cases ht
  refine { h with books := hbooks, source := ?_, pending := ?_, next := ?_ }
  · exact h.source
  · simp only [RewindFifo.enq, List.length_append, List.length_singleton]
    rw [← wraps_concat, ← h.pending, h.next]
  · simp only [RewindFifo.enq, List.length_append, List.length_singleton]
    rw [h.next, wrap_succ, Nat.add_assoc]

theorem passRewind (h : Sends C s g) {d : δ} (ht : s.passRewind C d = some t) :
    Sends C t { g with source := g.source ++ [d] } := by
  have hbooks := h.books.quiet (.passRewind s t d ht)
  obtain rfl := Sender.passRewind_cases ht
  exact { h with
    books := hbooks
    source := by simp [h.source] }

theorem txHeader (h : Sends C s g) {seq : ℕ} (ht : s.txHeader = some (t, seq)) :
    g.sending = none ∧ g.outstanding < maxFrames ∧ seq = wrap g.frame ∧
      Sends C t { g.emit (.header g.frame) with sending := some 0 } := by
  have hbooks := h.books.txHeader ht
  obtain ⟨hseq, hidle, hroom, rfl⟩ := Sender.txHeader_cases ht
  refine ⟨by simp [h.sending, hidle], ?_, (h.wrap_of_first hseq).1, ?_⟩
  · have := h.books.frameTimeout_length
    rw [h.outstanding_length] at this
    omega
  · exact { h with books := hbooks, sending := rfl }

theorem txSend (h : Sends C s g) {d : δ} (ht : s.txSend C = some (t, d)) :
    ∃ j, g.sending = some j ∧ g.source[C.size * g.frame + j]? = some d ∧
      ((j + 1 < C.size ∧
        Sends C t { g.emit (.item g.frame j d) with sending := some (j + 1) }) ∨
      (j + 1 = C.size ∧
        Sends C t { g.emit (.item g.frame j d) with
          sending := none, outstanding := g.outstanding + 1 })) := by
  have hbooks := h.books.txSend ht
  obtain ⟨hbusy, hd, hcases⟩ := Sender.txSend_cases ht
  have hpos := h.books.position_lt hbusy
  have hsource := h.source_of_first hd
  simp only [Sender.sentOfFrame, hbusy, if_true] at hsource
  refine ⟨s.framePositionTX, by simp [h.sending, hbusy], hsource, ?_⟩
  rcases hcases with ⟨hlast, rfl⟩ | ⟨seq, hlast, hseq, rfl⟩
  · have hlt : s.framePositionTX + 1 < C.size := by
      have : ¬ s.framePositionTX + 1 = C.size := by
        rw [← FrameCounter.isLast_iff hpos, hlast]
        simp
      omega
    refine Or.inl ⟨hlt, { h with books := hbooks, source := ?_, sending := ?_ }⟩
    · simp [State.emit, h.source]
    · simp [hbusy, FrameCounter.succ_eq hlt]
  · obtain ⟨hwrap, n, hpending⟩ := h.wrap_of_first hseq
    have hframe : g.base + (g.outstanding + 1) = g.frame + 1 := by rw [State.frame]; omega
    have hdeq : s.txSequenceRewindBuffer.deq.pending = wraps (g.frame + 1) n := by
      rw [RewindFifo.deq, hpending, List.tail_cons]
    refine Or.inr ⟨(FrameCounter.isLast_iff hpos).mp hlast, ?_⟩
    refine { h with
      books := hbooks, source := ?_, outstanding := ?_, sending := ?_, pending := ?_, next := ?_ }
    · simp [State.emit, h.source]
    · show s.ackSequenceNumberRX ++ [seq] = wraps g.base (g.outstanding + 1)
      rw [h.outstanding, hwrap, State.frame, wraps_concat]
    · simp
    · show s.txSequenceRewindBuffer.deq.pending = wraps (g.base + (g.outstanding + 1)) _
      rw [hframe, hdeq, wraps_length]
    · show s.sequenceNumberTX = wrap (g.base + (g.outstanding + 1) + _)
      rw [hframe, hdeq, wraps_length, h.next, hpending, List.length_cons, wraps_length]
      congr 1
      omega

theorem timeout (h : Sends C s g) :
    Sends C s.timeout { g with sending := none, outstanding := 0 } := by
  have hpending : s.timeout.txSequenceRewindBuffer.pending =
      wraps g.base (g.outstanding + s.txSequenceRewindBuffer.pending.length) := by
    show s.txSequenceRewindBuffer.taken ++ s.txSequenceRewindBuffer.pending = _
    rw [h.books.sequence_taken, h.outstanding, ← wraps_append]
    congr 1
    exact h.pending
  refine { h with
    books := Sender.bookkeeping_timeout s, source := ?_, outstanding := rfl, sending := rfl,
    pending := ?_, next := ?_ }
  · simp [Sender.timeout, h.source]
  · rw [hpending, wraps_length]
    rfl
  · rw [hpending, wraps_length]
    show s.sequenceNumberTX = _
    rw [h.next, State.frame, Nat.add_assoc]
    rfl

/-- A matching acknowledgement commits the oldest frame. -/
theorem commit (h : Sends C s g) {expected time : ℕ} {acks timeouts rest : List ℕ}
    (hacks : s.ackSequenceNumberRX = expected :: acks) (htime : s.frameTimeout = time :: timeouts)
    (hrx : s.ackRX = expected :: rest) :
    Sends C { s with
        ackRX := rest
        frameTimeout := timeouts
        ackSequenceNumberRX := acks
        txDataRewindBuffer := s.txDataRewindBuffer.commit C.size
        txSequenceRewindBuffer := s.txSequenceRewindBuffer.commit 1 }
      { g with base := g.base + 1, outstanding := g.outstanding - 1 } := by
  have hout : g.outstanding = acks.length + 1 := by
    rw [← h.outstanding_length, hacks, List.length_cons]
  have hframe : g.base + 1 + (g.outstanding - 1) = g.frame := by rw [State.frame]; omega
  have hwraps := h.outstanding
  rw [hacks, hout, wraps_succ] at hwraps
  refine { h with
    books := ?_, source := ?_, base := ?_, outstanding := ?_, pending := ?_, next := ?_ }
  · exact h.books.handleAck (by simp [Sender.handleAck, hacks, hrx, htime])
  · simp [h.source]
  · rw [RewindFifo.committed_commit_length, h.base,
      Nat.min_eq_left (h.books.size_le_taken hacks)]
    ring
  · show acks = wraps (g.base + 1) (g.outstanding - 1)
    rw [(List.cons.inj hwraps).2, hout, Nat.add_sub_cancel]
  · show s.txSequenceRewindBuffer.pending = wraps (g.base + 1 + (g.outstanding - 1)) _
    rw [hframe]
    exact h.pending
  · show s.sequenceNumberTX = wrap (g.base + 1 + (g.outstanding - 1) + _)
    rw [hframe]
    exact h.next

end Sends

/-! ### The links -/

/-- The flits on the way to the receiver are read as the link of `g`. -/
structure Carries (R : Reading φ δ) (flits : List (Flit φ)) (sent : ℕ) (g : State δ) : Prop where
  /-- The sender's chained flits are the tokens sent. -/
  sent : g.log.length = sent
  /-- The chained flits on the way are the tokens on the link. -/
  wire : g.wire = (flits.filter fun x => (R.kind x.orig).chained).map Flit.seqno
  /-- What was sent as a chained flit encodes its token. -/
  token : ∀ x ∈ flits, (R.kind x.orig).chained = true →
    ∃ t, g.log[x.seqno]? = some t ∧ R.encodes x.orig t

namespace Carries

variable {flits : List (Flit φ)} {sent : ℕ} {g : State δ}

/-- A chained flit enters the link as the token it encodes. -/
theorem emit (h : Carries R flits sent g) {f : φ} {t : Token δ}
    (hf : (R.kind f).chained = true) (ht : R.encodes f t) :
    Carries R (flits ++ [{ raw := f, softErr := false, orig := f, seqno := sent }]) (sent + 1)
      (g.emit t) where
  sent := by simp [State.emit, h.sent]
  wire := by simp [State.emit, h.wire, h.sent, hf]
  token := by
    intro x hx hc
    rcases List.mem_append.mp hx with hx | hx
    · obtain ⟨u, hu, henc⟩ := h.token x hx hc
      refine ⟨u, ?_, henc⟩
      rw [State.emit, List.getElem?_append_left (List.getElem?_eq_some_iff.mp hu).1]
      exact hu
    · obtain rfl := List.mem_singleton.mp hx
      refine ⟨t, ?_, ht⟩
      simp [State.emit, ← h.sent]

/-- A flit outside the chain changes nothing. -/
theorem control (h : Carries R flits sent g) {x : Flit φ} (hx : (R.kind x.orig).chained = false) :
    Carries R (flits ++ [x]) sent g where
  sent := h.sent
  wire := by simp [h.wire, hx]
  token := by
    intro y hy hc
    rcases List.mem_append.mp hy with hy | hy
    · exact h.token y hy hc
    · obtain rfl := List.mem_singleton.mp hy
      rw [hx] at hc
      cases hc

/-- Losing flits is losing tokens. -/
theorem sublist (h : Carries R flits sent g) {flits' : List (Flit φ)}
    (hs : flits'.Sublist flits) :
    ∃ w, w.Sublist g.wire ∧ Carries R flits' sent { g with wire := w } := by
  refine ⟨(flits'.filter fun x => (R.kind x.orig).chained).map Flit.seqno, ?_, h.sent, rfl, ?_⟩
  · rw [h.wire]
    exact (hs.filter _).map _
  · exact fun x hx hc => h.token x (hs.subset hx) hc

/-- What the receiver sees of a flit is not what it is read as. -/
theorem alter (h : Carries R flits sent g) {pre post : List (Flit φ)} {x y : Flit φ}
    (hf : flits = pre ++ x :: post) (ho : y.orig = x.orig) (hn : y.seqno = x.seqno) :
    Carries R (pre ++ y :: post) sent g := by
  subst hf
  refine ⟨h.sent, ?_, ?_⟩
  · rw [h.wire]
    simp [List.filter_cons, ho]
    split <;> simp [hn]
  · intro z hz hc
    rcases List.mem_append.mp hz with hz | hz
    · exact h.token z (List.mem_append_left _ hz) hc
    · rcases List.mem_cons.mp hz with rfl | hz
      · rw [hn]
        rw [ho] at hc ⊢
        exact h.token x (by simp) hc
      · exact h.token z (by simp [hz]) hc

end Carries

/-- The acknowledgements on their way back are read as those of `g`: those received, those on the
link, and those the receiver has yet to send. -/
def Returns (R : Reading φ δ) (ackRX : List ℕ) (back : List (Flit φ)) (ackTX : List ℕ)
    (g : State δ) : Prop :=
  ackRX ++ (back.filterMap fun x => R.ackOf x.orig) ++ ackTX = g.acks.map wrap

namespace Returns

variable {ackRX ackTX : List ℕ} {back : List (Flit φ)} {g : State δ}

/-- Losing acknowledgements on the way back. -/
theorem sublist (h : Returns R ackRX back ackTX g) {ackRX' : List ℕ} {back' : List (Flit φ)}
    (hrx : ackRX'.Sublist ackRX) (hb : back'.Sublist back) :
    ∃ a, a.Sublist g.acks ∧ Returns R ackRX' back' ackTX { g with acks := a } := by
  have hsub : (ackRX' ++ (back'.filterMap fun x => R.ackOf x.orig) ++ ackTX).Sublist
      (g.acks.map wrap) := by
    rw [← h]
    exact (hrx.append (hb.filterMap _)).append (List.Sublist.refl _)
  obtain ⟨a, ha, heq⟩ := List.sublist_map_iff.mp hsub
  exact ⟨a, ha, heq⟩

/-- A flit without an acknowledgement changes nothing. -/
theorem other (h : Returns R ackRX back ackTX g) {x : Flit φ} (hx : R.ackOf x.orig = none) :
    Returns R ackRX (back ++ [x]) ackTX g := by
  simpa [Returns, hx] using h

/-- The receiver sends the acknowledgement at the head of its queue. -/
theorem send (h : Returns R ackRX back ackTX g) {a : ℕ} {rest : List ℕ} (ha : ackTX = a :: rest)
    {x : Flit φ} (hx : R.ackOf x.orig = some a) : Returns R ackRX (back ++ [x]) rest g := by
  rw [Returns, ← h, ha]
  simp [hx]

/-- An acknowledgement reaches the sender's queue. -/
theorem arrive {x : Flit φ} (h : Returns R ackRX (x :: back) ackTX g) {a : ℕ}
    (hx : R.ackOf x.orig = some a) : Returns R (ackRX ++ [a]) back ackTX g := by
  rw [Returns, ← h]
  simp [hx]

/-- The receiver queues the acknowledgement of a frame. -/
theorem queue (h : Returns R ackRX back ackTX g) (f : ℕ) :
    Returns R ackRX back (ackTX ++ [wrap f]) { g with acks := g.acks ++ [f] } := by
  rw [Returns, List.map_append, ← h]
  simp

/-- Acknowledgements that wait to be sent are sequence numbers. -/
theorem lt_of_mem (h : Returns R ackRX back ackTX g) {a : ℕ} (ha : a ∈ ackTX) : a < 8 := by
  have hmem : a ∈ g.acks.map wrap := by
    rw [← h]
    exact List.mem_append_right _ ha
  obtain ⟨f, _, rfl⟩ := List.mem_map.mp hmem
  exact wrap_lt f

theorem alter (h : Returns R ackRX back ackTX g) {pre post : List (Flit φ)} {x y : Flit φ}
    (hb : back = pre ++ x :: post) (ho : y.orig = x.orig) :
    Returns R ackRX (pre ++ y :: post) ackTX g := by
  rw [Returns, ← h, hb]
  simp [List.filterMap_cons, ho]

end Returns

/-! ### The whole path -/

/-- What lies between the user's data and the receiver is read as `g`. -/
structure Reads (R : Reading φ δ) (C : FrameCounter) (tx : Sender δ) (flits : List (Flit φ))
    (sent : ℕ) (back : List (Flit φ)) (ackTX : List ℕ) (g : State δ) : Prop where
  /-- The transmit side. -/
  sends : Sends C tx g
  /-- The flits on their way. -/
  carries : Carries R flits sent g
  /-- The acknowledgements on their way. -/
  returns : Returns R tx.ackRX back ackTX g

/-- Two states of the protocol with the same receiver: the sender may have sent more. -/
structure SameReceiver (g g' : State δ) : Prop where
  /-- The frame it follows. -/
  current : g'.current = g.current
  /-- The frames it completed. -/
  done : g'.done = g.done
  /-- Its resume point. -/
  pos : g'.pos = g.pos
  /-- What it delivered. -/
  delivered : g'.delivered = g.delivered
  /-- What it may have seen is as it was. -/
  log : g.log <+: g'.log

theorem SameReceiver.refl (g : State δ) : SameReceiver g g :=
  ⟨rfl, rfl, rfl, rfl, List.prefix_refl _⟩

/-- A state that the protocol reaches from `g` without its receiver. -/
def Follows (C : FrameCounter) (g g' : State δ) : Prop :=
  Relation.ReflTransGen (GoBackN.Step C.size maxFrames) g g' ∧ SameReceiver g g'

theorem Follows.refl (g : State δ) : Follows C g g := ⟨.refl, .refl g⟩

theorem Follows.single {g g' : State δ} (h : GoBackN.Step C.size maxFrames g g')
    (hr : SameReceiver g g') : Follows C g g' := ⟨.single h, hr⟩

namespace Reads

variable {tx tx' : Sender δ} {flits back : List (Flit φ)} {sent : ℕ} {ackTX : List ℕ} {g : State δ}

/-- A matching acknowledgement is one of the oldest outstanding frame. -/
theorem base_of_match (h : Reads R C tx flits sent back ackTX g)
    (hinv : GoBackN.Inv C.size maxFrames g) {expected : ℕ} {acks rest : List ℕ}
    (hacks : tx.ackSequenceNumberRX = expected :: acks) (hrx : tx.ackRX = expected :: rest) :
    ∃ as, g.acks = g.base :: as ∧ 0 < g.outstanding ∧
      rest ++ (back.filterMap fun x => R.ackOf x.orig) ++ ackTX = as.map wrap := by
  have hout : 0 < g.outstanding := by
    rw [← h.sends.outstanding_length, hacks]
    simp
  have hexp : expected = wrap g.base := by
    have hw := h.sends.outstanding
    obtain ⟨n, hn⟩ : ∃ n, g.outstanding = n + 1 := ⟨g.outstanding - 1, by omega⟩
    rw [hacks, hn, wraps_succ] at hw
    exact (List.cons.inj hw).1
  have hret := h.returns
  rw [Returns, hrx] at hret
  cases hga : g.acks with
  | nil => simp [hga] at hret
  | cons a as =>
    rw [hga, List.map_cons, List.cons_append, List.cons_append] at hret
    obtain ⟨ha, has⟩ := List.cons.inj hret
    have hmem : a ∈ g.acks := by simp [hga]
    obtain ⟨hlo, hhi⟩ := hinv.ack_window hmem
    have hbase : a = g.base :=
      wrap_injOn_window (ha.symm.trans hexp) hlo hhi (Nat.le_add_right _ _) (by simp [maxFrames])
    exact ⟨as, by rw [hbase], hout, has⟩

/-- The sender drops the acknowledgement at the head of its queue. -/
theorem dropHead (h : Reads R C tx flits sent back ackTX g) {got : ℕ} {rest : List ℕ}
    (hrx : tx.ackRX = got :: rest) :
    ∃ g', Follows C g g' ∧ Reads R C { tx with ackRX := rest } flits sent back ackTX g' := by
  have hrest : rest.Sublist tx.ackRX := by
    rw [hrx]
    exact List.sublist_cons_self got rest
  obtain ⟨a, ha, hret⟩ := h.returns.sublist hrest (List.Sublist.refl _)
  refine ⟨{ g with acks := a }, .single (.loseAck g a ha) ⟨rfl, rfl, rfl, rfl, List.prefix_refl _⟩,
    ?_, { h.carries with }, hret⟩
  exact { h.sends with books := { h.sends.books with } }

/-- **The transmit side's silent rules** are steps of the protocol. -/
theorem quiet (h : Reads R C tx flits sent back ackTX g)
    (hinv : GoBackN.Inv C.size maxFrames g) (hq : Sender.Quiet C tx tx') :
    ∃ g', Follows C g g' ∧ Reads R C tx' flits sent back ackTX g' := by
  cases hq with
  | timerCount => exact ⟨g, .refl g, h.sends.timerCount, h.carries, h.returns⟩
  | sequenceStuffer _ ht =>
    refine ⟨g, .refl g, h.sends.sequenceStuffer ht, h.carries, ?_⟩
    obtain ⟨_, rfl⟩ := Sender.sequenceStuffer_cases ht
    exact h.returns
  | passRewind _ d ht =>
    refine ⟨_, .single (.give g [d]) ⟨rfl, rfl, rfl, rfl, List.prefix_refl _⟩,
      h.sends.passRewind ht, { h.carries with }, ?_⟩
    obtain rfl := Sender.passRewind_cases ht
    exact h.returns
  | timeout =>
    exact ⟨_, .single (.goBack g) ⟨rfl, rfl, rfl, rfl, List.prefix_refl _⟩, h.sends.timeout,
      { h.carries with }, h.returns⟩
  | handleAck _ ht =>
    obtain ⟨expected, acks, got, rest, hacks, hrx, hcases⟩ := Sender.handleAck_cases ht
    rcases hcases with ⟨_, rfl⟩ | ⟨time, timeouts, rfl, htime, rfl⟩
    · exact h.dropHead hrx
    · obtain ⟨as, has, hout, hret⟩ := h.base_of_match hinv hacks hrx
      exact ⟨_, .single (.commit g as has hout) ⟨rfl, rfl, rfl, rfl, List.prefix_refl _⟩,
        { h.sends.commit hacks htime hrx with }, { h.carries with }, hret⟩
  | dropAck _ ht =>
    obtain ⟨got, rest, _, hrx, rfl⟩ := Sender.dropAck_cases ht
    exact h.dropHead hrx

/-- A header goes onto the link. -/
theorem txHeader (h : Reads R C tx flits sent back ackTX g) {seq : ℕ}
    (ht : tx.txHeader = some (tx', seq)) {f : φ} (hf : (R.kind f).chained = true)
    (henc : ∀ n, seq = wrap n → R.encodes f (.header n)) :
    ∃ g', Follows C g g' ∧
      Reads R C tx' (flits ++ [{ raw := f, softErr := false, orig := f, seqno := sent }]) (sent + 1)
        back ackTX g' := by
  obtain ⟨hnone, hout, hseq, hsends⟩ := h.sends.txHeader ht
  refine ⟨_, .single (.header g hnone hout) ⟨rfl, rfl, rfl, rfl, List.prefix_append _ _⟩, hsends,
    { h.carries.emit hf (henc _ hseq) with }, ?_⟩
  obtain ⟨_, _, _, rfl⟩ := Sender.txHeader_cases ht
  exact h.returns

/-- A data flit goes onto the link. -/
theorem txSend (h : Reads R C tx flits sent back ackTX g) {d : δ}
    (ht : tx.txSend C = some (tx', d)) {f : φ} (hf : (R.kind f).chained = true)
    (henc : ∀ n, R.encodes f (.item n tx.framePositionTX d)) :
    ∃ g', Follows C g g' ∧
      Reads R C tx' (flits ++ [{ raw := f, softErr := false, orig := f, seqno := sent }]) (sent + 1)
        back ackTX g' := by
  obtain ⟨j, hj, hd, hcases⟩ := h.sends.txSend ht
  obtain ⟨hbusy, _, htx⟩ := Sender.txSend_cases ht
  obtain rfl : tx.framePositionTX = j := by simpa [h.sends.sending, hbusy] using hj
  have hrx : tx'.ackRX = tx.ackRX := by
    rcases htx with ⟨_, rfl⟩ | ⟨_, _, _, rfl⟩ <;> rfl
  rcases hcases with ⟨hlt, hsends⟩ | ⟨hlast, hsends⟩
  · exact ⟨_, .single (.item g _ d hj hlt hd) ⟨rfl, rfl, rfl, rfl, List.prefix_append _ _⟩, hsends,
      { h.carries.emit hf (henc _) with }, by rw [hrx]; exact h.returns⟩
  · exact ⟨_, .single (.lastItem g _ d hj hlast hd)
      ⟨rfl, rfl, rfl, rfl, List.prefix_append _ _⟩, hsends,
      { h.carries.emit hf (henc _) with }, by rw [hrx]; exact h.returns⟩

/-- The link, or the receiver, loses flits. -/
theorem lose (h : Reads R C tx flits sent back ackTX g) {flits' : List (Flit φ)}
    (hs : flits'.Sublist flits) :
    ∃ g', Follows C g g' ∧ Reads R C tx flits' sent back ackTX g' := by
  obtain ⟨w, hw, hcarries⟩ := h.carries.sublist hs
  exact ⟨_, .single (.lose g w hw) ⟨rfl, rfl, rfl, rfl, List.prefix_refl _⟩, { h.sends with },
    hcarries, h.returns⟩

/-- The way back loses flits. -/
theorem loseBack (h : Reads R C tx flits sent back ackTX g) {back' : List (Flit φ)}
    (hb : back'.Sublist back) :
    ∃ g', Follows C g g' ∧ Reads R C tx flits sent back' ackTX g' := by
  obtain ⟨a, ha, hret⟩ := h.returns.sublist (List.Sublist.refl _) hb
  exact ⟨_, .single (.loseAck g a ha) ⟨rfl, rfl, rfl, rfl, List.prefix_refl _⟩, { h.sends with },
    { h.carries with }, hret⟩

/-- **Commit safety.** When an acknowledgement matches, the frame it commits is among what the
receiver has delivered. -/
theorem commit_safe (h : Reads R C tx flits sent back ackTX g)
    (hinv : GoBackN.Inv C.size maxFrames g) {expected : ℕ} {acks rest : List ℕ}
    (hacks : tx.ackSequenceNumberRX = expected :: acks) (hrx : tx.ackRX = expected :: rest) :
    tx.txDataRewindBuffer.committed ++ tx.txDataRewindBuffer.taken.take C.size <+: g.delivered := by
  obtain ⟨as, has, _, _⟩ := h.base_of_match hinv hacks hrx
  have hlen := hinv.ack_delivered (a := g.base) (by simp [has])
  refine List.prefix_of_prefix_length_le
    (tx.txDataRewindBuffer.commit_isPrefix C.size) ?_ ?_
  · rw [← h.sends.source]
    exact hinv.delivered_isPrefix
  · rw [List.length_append, List.length_take, h.sends.base, Nat.mul_add] at *
    omega

end Reads

end Aurora

end LeapPlatforms
