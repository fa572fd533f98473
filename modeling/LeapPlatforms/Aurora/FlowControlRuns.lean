import LeapPlatforms.Aurora.FlowControlCredit

/-!
# Runs of the flow-control driver past the handshake

Two endpoints past the handshake, with nothing sent yet but heartbeats. From there no credit is lost
and no flit is taken for something else.

## Main definitions

* `PastHandshake`, `pastHandshake` — the states that runs start from, and the runs
* `Conserved`, `Agrees` — what holds of one direction

## Main results

* `flows_of_reachable`
* `credit_conservation`
* `framing_agreement`
-/

namespace LeapPlatforms

namespace Aurora

namespace FlowControl

open FifoLink (Side Duplex)

variable {P : Params}

/-! ### Runs past the handshake -/

/-- An endpoint past the handshake that has sent nothing but heartbeats, some of them still on its
link. -/
structure PastHandshake (s : Side (Endpoint P) (Flit P)) : Prop where
  /-- The handshake is done. -/
  ready : s.ep.handshakeRXDone = true
  /-- No word is being received, or sent. -/
  counts : s.ep.flitCountRX = 0 ∧ s.ep.flitCountTX = 0
  /-- The credits are those after reset. -/
  credits : s.ep.txCredits = totalCredits ∧ s.ep.rxCredits = 0 ∧ s.ep.creditUnderflow = false
  /-- The queues behind the link are empty. -/
  queues : s.ep.marshaller = [] ∧ s.ep.serdesInfifo = [] ∧ s.ep.demarshaller = [] ∧
    s.ep.creditFIFO = []
  /-- Nothing was sent. -/
  sent : s.ep.wordsSent = [] ∧ s.ep.creditsSent = []
  /-- Nothing was received. -/
  received : s.ep.wordsReceived = [] ∧ s.ep.creditsReceived = []
  /-- Heartbeats are numbered. -/
  numbered : s.ep.heartbeatTX = BitVec.ofNat 5 s.ep.heartbeatsSent.length
  /-- Only heartbeats are on the link. -/
  link : ∀ x ∈ s.link, ∃ i consecutive done, x.sent = .heartbeat i consecutive ∧
    x.raw = heartbeatWord done consecutive (BitVec.ofNat 5 i)

variable (P) in
/-- Two endpoints past the handshake, over lossless links. -/
def pastHandshake : TransitionSystem (Duplex (Endpoint P) (Flit P)) :=
  FifoLink.system (machine P) fun d => PastHandshake d.a ∧ PastHandshake d.b

/-- Nothing on the link of an endpoint past the handshake is a word or a credit message. -/
theorem PastHandshake.link_nil {s : Side (Endpoint P) (Flit P)} (h : PastHandshake s) :
    dataOn s.link = [] ∧ creditsOn s.link = [] ∧ Framed 0 s.link 0 := by
  have hlink := h.link
  generalize s.link = l at hlink
  induction l with
  | nil => exact ⟨rfl, rfl, .nil 0⟩
  | cons x l ih =>
    obtain ⟨hdata, hcredits, hframed⟩ := ih fun y hy => hlink y (List.mem_cons_of_mem _ hy)
    obtain ⟨i, consecutive, done, hsent, hraw⟩ := hlink x (by simp)
    obtain ⟨raw, sent⟩ := x
    obtain rfl : sent = _ := hsent
    exact ⟨hdata, hcredits, .cons ⟨rfl, done, hraw⟩ hframed⟩

theorem flows_of_pastHandshake {s p : Side (Endpoint P) (Flit P)} (hs : PastHandshake s)
    (hp : PastHandshake p) : Flows s p := by
  obtain ⟨hdata, hcredits, hframed⟩ := hs.link_nil
  constructor
  case toFrames =>
    refine ⟨?_, ?_, ?_, Or.inl ⟨hs.queues.1, hs.counts.2⟩, fun _ d hd => ?_, hs.numbered⟩
    · rw [hp.counts.1]
      exact P.interfaceWords_pos
    · rw [hs.counts.2]
      exact P.interfaceWords_pos
    · rw [hp.counts.1, hs.counts.2]
      exact hframed
    · rw [hs.queues.1] at hd
      cases hd
  case ready => exact hp.ready
  case stream =>
    refine ⟨[], ?_, by simp, hp.received.1⟩
    rw [hs.sent.1, hp.queues.2.1, hp.queues.2.2.1, hs.queues.1, hdata]
    rfl
  case credits => rw [hp.received.2, hcredits, hs.sent.2, List.append_nil]
  case conserved =>
    rw [creditsHeld, flitsHeld, hs.credits.1, hp.credits.2.1, hp.link_nil.2.1, hs.queues.2.2.2,
      hs.queues.1, hp.queues.2.1, hp.queues.2.2.1, hdata]
    rfl
  case large =>
    rw [hp.link_nil.2.1, hs.queues.2.2.2]
    simp
  case sound => exact hs.credits.2.2

theorem flows_of_reachable {d : Duplex (Endpoint P) (Flit P)} (h : (pastHandshake P).Reachable d) :
    Flows d.a d.b ∧ Flows d.b d.a := by
  refine FifoLink.directed (D := Flows) ?_ ?_ ?_ h
  · rintro d ⟨ha, hb⟩
    exact ⟨flows_of_pastHandshake ha hb, flows_of_pastHandshake hb ha⟩
  · intro s p s' p' hsp hps hmove
    exact hsp.send hps hmove
  · intro s p s' p' hsp _ hmove
    exact hsp.recv hmove

/-! ### A run -/

/-- The smallest flits that a heartbeat fits, and words of two flits. -/
def sampleParams : Params where
  widthExtra := 11
  widthExtra_ge := Nat.le_refl _
  interfaceWords := 2
  interfaceWords_pos := Nat.two_pos

/-- An endpoint past the handshake. -/
def Endpoint.ready : Endpoint sampleParams :=
  { Endpoint.reset sampleParams with
    ccCycles := 0, handshakeRXDone := true, handshakeTXDone := true }

/-- Two of them. -/
def readyPair : Duplex (Endpoint sampleParams) (Flit sampleParams) where
  a := { ep := .ready, link := [] }
  b := { ep := .ready, link := [] }

theorem pastHandshake_ready : PastHandshake (P := sampleParams) { ep := .ready, link := [] } := by
  constructor
  case link => simp
  all_goals first | rfl | exact ⟨rfl, rfl⟩ | exact ⟨rfl, rfl, rfl⟩ | exact ⟨rfl, rfl, rfl, rfl⟩

/-- A word crosses the link, a heartbeat follows, and another word is half sent. -/
def sampleTurns : List (Bool × FifoLink.Turn (Rule sampleParams)) :=
  [(true, .rule (.write 0x1555555)), (true, .rule (.write 7)), (true, .rule .txData),
    (true, .rule .txSend), (true, .rule .txSend), (true, .rule .txHeartbeat), (true, .rule .txData),
    (true, .rule .txSend), (false, .intake), (false, .intake), (false, .rule .rxDemarsh),
    (false, .rule .rxDemarsh), (false, .rule .rxDone)]

/-- What that leaves. -/
theorem sampleTurns_words : (FifoLink.run (machine sampleParams) sampleTurns readyPair).map
    (fun d => (d.a.ep.wordsSent, d.a.ep.txCredits, d.a.link.length, d.b.ep.wordsReceived)) =
      some ([0x1555555, 7], 126, 2, [0x1555555]) := by
  decide +kernel

theorem sample_reachable : ∃ d : Duplex (Endpoint sampleParams) (Flit sampleParams),
    (pastHandshake sampleParams).Reachable d ∧ d.a.ep.wordsSent = [0x1555555, 7] ∧
      d.a.ep.txCredits = 126 ∧ d.a.link.length = 2 ∧ d.b.ep.wordsReceived = [0x1555555] := by
  obtain ⟨d, hrun, hwords⟩ := Option.map_eq_some_iff.mp sampleTurns_words
  refine ⟨d, FifoLink.run_reachable (.init ⟨pastHandshake_ready, pastHandshake_ready⟩) hrun, ?_⟩
  simpa only [Prod.mk.injEq] using hwords

/-! ### Credits -/

/-- Where the credits of `s` for words to `p` are, and what follows from it. -/
structure Conserved (s p : Side (Endpoint P) (Flit P)) : Prop where
  /-- They are in `txCredits`, with words, in the receiver's `rxCredits`, or on their way back. -/
  credits : ∃ words, flitsHeld s p = P.interfaceWords * words ∧
    s.ep.txCredits + words + p.ep.rxCredits +
      ((creditsOn p.link).sum + s.ep.creditFIFO.sum) = totalCredits
  /-- `serdes_infifo` has room for every flit on the link. -/
  room : p.ep.serdesInfifo.length + (dataOn s.link).length ≤ totalCredits * P.interfaceWords
  /-- Nothing on the link waits for room. -/
  taken : ∀ x, s.link.head? = some x → (p.ep.rxIntake x.raw).isSome = true
  /-- `updateCredit` does not fail, and never has. -/
  underflow : s.ep.creditUnderflow = false ∧
    ∀ value, s.ep.creditFIFO.head? = some value → s.ep.txCredits + value ≤ totalCredits
  /-- At most one credit message is outstanding. -/
  outstanding : (creditsOn p.link).length + s.ep.creditFIFO.length ≤ 1
  /-- Where there is no credit and nothing is on its way, the peer gives credit. -/
  live : s.ep.txCredits = 0 → flitsHeld s p = 0 → creditsOn p.link = [] → s.ep.creditFIFO = [] →
    p.ep.marshaller = [] → p.ep.txFC.isSome = true

theorem conserved_of_flows {s p : Side (Endpoint P) (Flit P)} (h : Flows s p) (hback : Flows p s) :
    Conserved s p := by
  have hconserved := h.conserved
  have hle := h.creditsHeld_le
  constructor
  case credits =>
    refine ⟨totalCredits - creditsHeld s p, ?_, ?_⟩
    · rw [Nat.mul_sub, ← hconserved, Nat.add_sub_cancel_left]
    · simp only [creditsHeld] at hle ⊢
      omega
  case room =>
    have hflits := h.flitsHeld_le
    rw [flitsHeld] at hflits
    omega
  case taken =>
    intro x hx
    exact h.intake_isSome hback hx
  case underflow =>
    refine ⟨h.sound, fun value hvalue => ?_⟩
    obtain ⟨rest, hrest⟩ := List.head?_eq_some_iff.mp hvalue
    rw [creditsHeld, hrest, List.sum_cons] at hle
    omega
  case outstanding => exact h.outstanding
  case live =>
    intro htx hflits hwire hfifo hm
    have hcount : p.ep.flitCountTX = 0 := by
      rcases hback.marshaller with ⟨_, hcount⟩ | ⟨hne, _⟩
      · exact hcount
      · exact absurd hm hne
    -- all credits are with the receiver
    have hrx : p.ep.rxCredits = totalCredits := by
      refine Nat.eq_of_mul_eq_mul_left P.interfaceWords_pos ?_
      rw [← hconserved, hflits, creditsHeld, htx, hwire, hfifo]
      simp
    rw [Endpoint.txFC, if_pos ⟨hcount, Or.inr (by rw [hrx]; decide)⟩]
    rfl

/-- **Credit conservation.** In every reachable state of two endpoints past the handshake, every
credit of either is in one of its places, so nothing overflows and credits come back. -/
theorem credit_conservation (P : Params) (d : Duplex (Endpoint P) (Flit P))
    (h : (pastHandshake P).Reachable d) : Conserved d.a d.b ∧ Conserved d.b d.a := by
  have hflows := flows_of_reachable h
  exact ⟨conserved_of_flows hflows.1 hflows.2, conserved_of_flows hflows.2 hflows.1⟩

theorem credit_conservation_sample :
    ∃ d : Duplex (Endpoint sampleParams) (Flit sampleParams),
      (pastHandshake sampleParams).Reachable d ∧ d.a.ep.txCredits = 126 ∧ d.a.link.length = 2 ∧
        Conserved d.a d.b ∧ Conserved d.b d.a := by
  obtain ⟨d, hreach, _, htx, hlink, _⟩ := sample_reachable
  exact ⟨d, hreach, htx, hlink, credit_conservation sampleParams d hreach⟩

/-! ### Words and credit messages -/

/-- What `p` makes of what `s` sends. -/
structure Agrees (s p : Side (Endpoint P) (Flit P)) : Prop where
  /-- The next flit is taken for what it was sent as. -/
  kind : ∀ x, s.link.head? = some x → p.ep.classify x.raw = x.sent.kind
  /-- The words received are the first of those sent. -/
  words : p.ep.wordsReceived <+: s.ep.wordsSent
  /-- The credit values received are the first of those sent. -/
  credits : p.ep.creditsReceived <+: s.ep.creditsSent

theorem agrees_of_flows {s p : Side (Endpoint P) (Flit P)} (h : Flows s p) : Agrees s p := by
  constructor
  case kind =>
    intro x hx
    obtain ⟨link, hlink⟩ := List.head?_eq_some_iff.mp hx
    exact classify_of_fits (Flows.fits_head h.toFrames hlink)
  case words =>
    obtain ⟨groups, hflat, hlen, hwords⟩ := h.stream
    have hbegin : groups.flatten <+:
        (s.ep.wordsSent.map extend).flatMap (Marshal.split P.interfaceWords) := by
      rw [List.flatMap_map]
      refine ⟨p.ep.demarshaller ++ (p.ep.serdesInfifo ++ (dataOn s.link ++ s.ep.marshaller)), ?_⟩
      rw [← List.append_assoc, ← List.append_assoc, ← List.append_assoc]
      exact hflat
    have hjoin := Marshal.map_join_isPrefix P.interfaceWords_pos hlen hbegin
    have hrestrict := hjoin.map restrict
    simp only [List.map_map, Function.comp_def, restrict_extend, List.map_id'] at hrestrict
    rw [hwords]
    exact hrestrict
  case credits => exact ⟨_, h.credits⟩

/-- **Framing agreement.** In every reachable state of two endpoints past the handshake, the
receiver takes the next flit for what it was sent as, whatever its bits; the words and the credit
values received are the first of those sent. -/
theorem framing_agreement (P : Params) (d : Duplex (Endpoint P) (Flit P))
    (h : (pastHandshake P).Reachable d) : Agrees d.a d.b ∧ Agrees d.b d.a := by
  have hflows := flows_of_reachable h
  exact ⟨agrees_of_flows hflows.1, agrees_of_flows hflows.2⟩

theorem framing_agreement_sample :
    ∃ d : Duplex (Endpoint sampleParams) (Flit sampleParams),
      (pastHandshake sampleParams).Reachable d ∧ d.a.ep.wordsSent = [0x1555555, 7] ∧
        d.b.ep.wordsReceived = [0x1555555] ∧ Agrees d.a d.b ∧ Agrees d.b d.a := by
  obtain ⟨d, hreach, hsent, _, _, hreceived⟩ := sample_reachable
  exact ⟨d, hreach, hsent, hreceived, framing_agreement sampleParams d hreach⟩

end FlowControl

end Aurora

end LeapPlatforms
