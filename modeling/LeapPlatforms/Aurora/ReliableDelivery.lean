import LeapPlatforms.Aurora.Reliable
import LeapPlatforms.Aurora.ReliableReceive
import LeapPlatforms.Foundation.Crc

/-!
# Exactly-once delivery of the reliable driver

Two endpoints of the driver over links that lose and alter flits, read in each direction as a
state of `GoBackN`: `Link` is the relation, and every move of either endpoint or either link is
answered by steps of the protocol that keep it. What the protocol's invariant says is then true of
the driver.

## Main definitions

* `Reliable.reading` — how the driver's flits are read
* `Receives` — the receive side is read as the receiver of the protocol
* `Link`, `Linked` — one direction between two endpoints

## Main results

* `linked_of_reachable`
* `exactly_once_in_order` — in-order exactly-once delivery
* `commit_delivered` — a frame is only given up when it was delivered
-/

namespace LeapPlatforms

namespace Aurora

namespace Reliable

open LossyLink (Flit Kind Side Duplex Move Genuine observe)
open GoBackN (State Token)

variable {P : Params}

variable (P) in
/-- How the driver's flits are read. -/
def reading : Reading (Raw P) (Data P) where
  kind := kind
  ackOf f := if kind f = .control ∧ tagOf f = ack then some (sequenceOf f) else none
  encodes f
    | .header n => f = pack 0 (controlTop header (wrap n))
    | .item _ _ d => ∃ salt, f = pack salt (payloadTop d)
  header_of_encodes := by
    rintro f (n | ⟨n, j, d⟩) hkind henc
    · exact ⟨n, rfl⟩
    · obtain ⟨salt, rfl⟩ := henc
      rw [kind_payload] at hkind
      cases hkind
  item_of_encodes := by
    rintro f (n | ⟨n, j, d⟩) hkind henc
    · rw [henc, kind_header] at hkind
      cases hkind
    · exact ⟨n, j, d, rfl⟩

/-- The receive side of an endpoint is read as the receiver of `g`. -/
structure Receives (e : Endpoint P) (chain : Option ℕ) (g : State (Data P)) : Prop where
  /-- Without an error, the receiver is where the protocol's is, and its chain with it. -/
  following : e.frameErrorRX = false → ∃ f j, g.current = some (f, j) ∧
    e.provisionalSequenceNumberRX = wrap f ∧ e.provisionalFramePositionRX = j % 128 ∧
    Chained chain g f j
  /-- The resume point. -/
  position : e.framePositionRX = g.pos
  /-- The frame that is not complete. -/
  sequence : e.sequenceNumberRX = wrap g.done
  /-- What was handed on. -/
  handed : e.handed = g.delivered

theorem Receives.mono {e : Endpoint P} {chain : Option ℕ} {g g' : State (Data P)}
    (h : Receives e chain g) (hsame : SameReceiver g g') : Receives e chain g' where
  following herr := by
    obtain ⟨f, j, hcur, hseq, hpos, hchain⟩ := h.following herr
    exact ⟨f, j, hsame.current.trans hcur, hseq, hpos, hchain.mono hsame.log⟩
  position := h.position.trans hsame.pos.symm
  sequence := by rw [hsame.done]; exact h.sequence
  handed := h.handed.trans hsame.delivered.symm

/-- The user's words, cut into flits, are what the sender was given and what it will be. -/
def Supplies (e : Endpoint P) : Prop :=
  e.tx.txDataRewindBuffer.stream ++ e.marshaller ++
    e.serdesTxfifo.flatMap (Marshal.split P.interfaceWords) =
      e.given.flatMap (Marshal.split P.interfaceWords)

/-- One direction between two endpoints, from `s` to `p`, is read as `g`. -/
structure Link (s p : Side (Endpoint P) (Raw P)) (g : State (Data P)) : Prop where
  /-- The path from the user's data to the receiver, and back. -/
  reads : Reads (reading P) frameCounter s.ep.tx (p.ep.serdesInfifo ++ s.link) s.sent
    (s.ep.serdesInfifo ++ p.link) p.ep.ackSequenceNumberTX g
  /-- The receiver. -/
  receives : Receives p.ep p.chain g
  /-- The user. -/
  supplies : Supplies s.ep

/-- One direction between two endpoints is read as a reachable state of the protocol. -/
def Linked (s p : Side (Endpoint P) (Raw P)) : Prop :=
  ∃ g, (GoBackN.system (Data P) frameCounter.size maxFrames).Reachable g ∧ Link s p g

variable {s p s' p' : Side (Endpoint P) (Raw P)} {g g' : State (Data P)}

theorem inv_of_reachable (h : (GoBackN.system (Data P) frameCounter.size maxFrames).Reachable g) :
    GoBackN.Inv frameCounter.size maxFrames g :=
  GoBackN.inv_of_reachable (by decide) (by decide) h

/-! ### Rules that a link does not see -/

/-- The endpoint neither sends nor examines a flit, and the receive side stands still. -/
structure Silent (e e' : Endpoint P) : Prop where
  /-- The transmit side, by one of its silent rules. -/
  tx : e'.tx = e.tx ∨ Sender.Quiet frameCounter e.tx e'.tx
  /-- Flits received. -/
  serdesInfifo : e'.serdesInfifo = e.serdesInfifo
  /-- Acknowledgements to send. -/
  ackSequenceNumberTX : e'.ackSequenceNumberTX = e.ackSequenceNumberTX
  /-- The user's words. -/
  supplies : Supplies e → Supplies e'
  /-- The receiver. -/
  receives : ∀ chain g, Receives e chain g → Receives e' chain g

variable {e e' : Endpoint P}

/-- A silent rule of the transmit side that leaves the stream of data flits as it is. -/
theorem silent_of_quiet {tx : Sender (Data P)} (hq : Sender.Quiet frameCounter e.tx tx)
    (hstream : tx.txDataRewindBuffer.stream = e.tx.txDataRewindBuffer.stream) :
    Silent e { e with tx := tx } where
  tx := Or.inr hq
  serdesInfifo := rfl
  ackSequenceNumberTX := rfl
  supplies h := by rw [Supplies, hstream]; exact h
  receives _ _ h := { h with }

theorem silent_write {w : Word P} (h : e.write w = some e') : Silent e e' := by
  rw [Endpoint.write] at h
  split at h
  · obtain rfl := Option.some.inj h
    refine ⟨Or.inl rfl, rfl, rfl, fun hs => ?_, fun _ _ h => { h with }⟩
    rw [Supplies] at hs
    simp only [Supplies, List.flatMap_append, ← hs, List.append_assoc]
  · cases h

theorem silent_crossDomain (h : e.crossDomain = some e') : Silent e e' := by
  rw [Endpoint.crossDomain] at h
  split at h
  · next w rest hf hm =>
    obtain rfl := Option.some.inj h
    refine ⟨Or.inl rfl, rfl, rfl, fun hs => ?_, fun _ _ h => { h with }⟩
    rw [Supplies, hf, hm] at hs
    simpa [Supplies] using hs
  · cases h

theorem silent_passRewind (h : e.passRewind = some e') : Silent e e' := by
  rw [Endpoint.passRewind] at h
  split at h
  · cases h
  · next d rest hm =>
    obtain ⟨tx, htx, rfl⟩ := Option.map_eq_some_iff.mp h
    refine ⟨Or.inr (.passRewind _ _ d htx), rfl, rfl, fun hs => ?_, fun _ _ h => { h with }⟩
    rw [Supplies, hm] at hs
    obtain rfl := Sender.passRewind_cases htx
    simpa [Supplies] using hs

theorem silent_sequenceStuffer (h : e.sequenceStuffer = some e') : Silent e e' := by
  obtain ⟨tx, htx, rfl⟩ := Option.map_eq_some_iff.mp h
  refine silent_of_quiet (.sequenceStuffer _ _ htx) ?_
  obtain ⟨_, rfl⟩ := Sender.sequenceStuffer_cases htx
  rfl

theorem silent_handleAck (h : e.handleAck = some e') : Silent e e' := by
  obtain ⟨tx, htx, rfl⟩ := Option.map_eq_some_iff.mp h
  refine silent_of_quiet (.handleAck _ _ htx) ?_
  obtain ⟨_, _, _, _, _, _, ⟨_, rfl⟩ | ⟨_, _, _, _, rfl⟩⟩ := Sender.handleAck_cases htx <;> simp

theorem silent_dropAck (h : e.dropAck = some e') : Silent e e' := by
  obtain ⟨tx, htx, rfl⟩ := Option.map_eq_some_iff.mp h
  refine silent_of_quiet (.dropAck _ _ htx) ?_
  obtain ⟨_, _, _, _, rfl⟩ := Sender.dropAck_cases htx
  rfl

theorem silent_timeout (h : e.timeout = some e') : Silent e e' := by
  rw [Endpoint.timeout] at h
  split at h
  · obtain rfl := Option.some.inj h
    exact { silent_of_quiet (e := e) (.timeout _) (RewindFifo.stream_rewind _) with
      receives := fun _ _ h => { h with } }
  · cases h

/-- The rules that touch nothing a link depends on: registers of the user's side and timers. -/
theorem silent_local (h : e.tickCC = some e' ∨ e.timeoutTest = some e' ∨ e.rxDone = some e' ∨
    e.deq = some e') : Silent e e' := by
  rcases h with h | h | h | h
  · unfold Endpoint.tickCC at h
    split at h
    · obtain rfl := Option.some.inj h
      exact ⟨Or.inl rfl, rfl, rfl, id, fun _ _ h => { h with }⟩
    · cases h
  · unfold Endpoint.timeoutTest at h
    split at h
    · cases h
    · split at h
      · obtain rfl := Option.some.inj h
        exact ⟨Or.inl rfl, rfl, rfl, id, fun _ _ h => { h with }⟩
      · cases h
  · unfold Endpoint.rxDone at h
    split at h
    · obtain rfl := Option.some.inj h
      exact ⟨Or.inl rfl, rfl, rfl, id, fun _ _ h => { h with }⟩
    · cases h
  · unfold Endpoint.deq at h
    split at h
    · cases h
    · obtain rfl := Option.some.inj h
      exact ⟨Or.inl rfl, rfl, rfl, id, fun _ _ h => { h with }⟩

/-- What a rule does, as far as the links are concerned. -/
theorem rule_cases {r : Rule P} {out : Option (Raw P)} (h : rule r e = some (e', out)) :
    (out = none ∧ (machine P).examines r e = none ∧ Silent e e') ∨
    (∃ f, out = some f ∧ (machine P).examines r e = none ∧
      (e.txHeader = some (e', f) ∨ e.txSend = some (e', f) ∨ e.txFC = some (e', f))) ∨
    (out = none ∧ (machine P).examines r e = e.serdesInfifo.head? ∧ e.rxDemarsh = some e') := by
  cases r <;> first
    | obtain ⟨rfl, rfl⟩ := Prod.mk.inj (Option.some.inj h)
    | obtain ⟨_, ht, heq⟩ := Option.map_eq_some_iff.mp h
      obtain ⟨rfl, rfl⟩ := Prod.mk.inj heq
  case timerCount => exact Or.inl ⟨rfl, rfl, silent_of_quiet (.timerCount _) rfl⟩
  case sequenceStuffer => exact Or.inl ⟨rfl, rfl, silent_sequenceStuffer ht⟩
  case passRewind => exact Or.inl ⟨rfl, rfl, silent_passRewind ht⟩
  case tickCC => exact Or.inl ⟨rfl, rfl, silent_local (Or.inl ht)⟩
  case write => exact Or.inl ⟨rfl, rfl, silent_write ht⟩
  case crossDomain => exact Or.inl ⟨rfl, rfl, silent_crossDomain ht⟩
  case txHeader => exact Or.inr (Or.inl ⟨_, rfl, rfl, Or.inl ht⟩)
  case txFC => exact Or.inr (Or.inl ⟨_, rfl, rfl, Or.inr (Or.inr ht)⟩)
  case txSend => exact Or.inr (Or.inl ⟨_, rfl, rfl, Or.inr (Or.inl ht)⟩)
  case timeoutTest => exact Or.inl ⟨rfl, rfl, silent_local (Or.inr (Or.inl ht))⟩
  case timeout => exact Or.inl ⟨rfl, rfl, silent_timeout ht⟩
  case handleAck => exact Or.inl ⟨rfl, rfl, silent_handleAck ht⟩
  case dropAck => exact Or.inl ⟨rfl, rfl, silent_dropAck ht⟩
  case rxDemarsh => exact Or.inr (Or.inr ⟨rfl, rfl, ht⟩)
  case rxDone => exact Or.inl ⟨rfl, rfl, silent_local (Or.inr (Or.inr (Or.inl ht)))⟩
  case deq => exact Or.inl ⟨rfl, rfl, silent_local (Or.inr (Or.inr (Or.inr ht)))⟩

/-! ### The sending endpoint moves -/

theorem Linked.sendSilent (h : Linked s p) (hs : Silent s.ep e) : Linked { s with ep := e } p := by
  obtain ⟨g, hg, hreads, hreceives, hsupplies⟩ := h
  rcases hs.tx with htx | hq
  · refine ⟨g, hg, ?_, hreceives, hs.supplies hsupplies⟩
    rw [htx, hs.serdesInfifo]
    exact hreads
  · obtain ⟨g', hfollow, hreads'⟩ := hreads.quiet (inv_of_reachable hg) hq
    refine ⟨g', hg.steps hfollow.1, ?_, hreceives.mono hfollow.2, hs.supplies hsupplies⟩
    rw [hs.serdesInfifo]
    exact hreads'

theorem Linked.sendTxHeader (h : Linked s p) {f : Raw P}
    (ht : s.ep.txHeader = some (e, f)) :
    kind f = .header ∧
      Linked { s with ep := e, link := s.link ++ [s.label f], sent := s.sent + 1 } p := by
  obtain ⟨g, hg, hreads, hreceives, hsupplies⟩ := h
  rw [Endpoint.txHeader] at ht
  split at ht
  · obtain ⟨⟨tx, seq⟩, htx, heq⟩ := Option.map_eq_some_iff.mp ht
    obtain ⟨rfl, rfl⟩ := Prod.mk.inj heq
    obtain ⟨g', hfollow, hreads'⟩ := hreads.txHeader htx
      (f := pack 0 (controlTop header seq)) (by simp [reading, kind_header, Kind.chained])
      (by rintro n rfl; rfl)
    refine ⟨kind_header _ _, g', hg.steps hfollow.1, ?_, hreceives.mono hfollow.2, ?_⟩
    · rw [← List.append_assoc]
      exact hreads'
    · obtain ⟨_, _, _, rfl⟩ := Sender.txHeader_cases htx
      exact hsupplies
  · cases ht

theorem Linked.sendTxSend (h : Linked s p) {f : Raw P}
    (ht : s.ep.txSend = some (e, f)) :
    kind f = .payload ∧
      Linked { s with ep := e, link := s.link ++ [s.label f], sent := s.sent + 1 } p := by
  obtain ⟨g, hg, hreads, hreceives, hsupplies⟩ := h
  obtain ⟨⟨tx, d⟩, htx, heq⟩ := Option.map_eq_some_iff.mp ht
  obtain ⟨rfl, rfl⟩ := Prod.mk.inj heq
  obtain ⟨g', hfollow, hreads'⟩ := hreads.txSend htx
    (f := pack s.ep.parityTX (payloadTop d)) (by simp [reading, kind_payload, Kind.chained])
    (fun n => ⟨_, rfl⟩)
  refine ⟨kind_payload _ _, g', hg.steps hfollow.1, ?_, hreceives.mono hfollow.2, ?_⟩
  · rw [← List.append_assoc]
    exact hreads'
  · obtain ⟨_, _, ⟨_, rfl⟩ | ⟨_, _, _, rfl⟩⟩ := Sender.txSend_cases htx <;>
      simpa [Supplies] using hsupplies

theorem Linked.sendTxFC (h : Linked s p) {f : Raw P}
    (ht : s.ep.txFC = some (e, f)) :
    kind f = .control ∧ Linked { s with ep := e, link := s.link ++ [s.label f] } p := by
  obtain ⟨g, hg, hreads, hreceives, hsupplies⟩ := h
  obtain ⟨a, rest, _, rfl, rfl⟩ := Endpoint.txFC_cases ht
  refine ⟨kind_ack _ _, g, hg, ⟨hreads.sends, ?_, hreads.returns⟩, hreceives, hsupplies⟩
  rw [← List.append_assoc]
  exact hreads.carries.control (by simp [reading, Side.label, kind_ack, Kind.chained])

/-- The sending endpoint examines a flit: it can only be told of an acknowledgement. -/
theorem Linked.sendRxDemarsh (h : Linked s p) {chain : Option ℕ}
    (ht : s.ep.rxDemarsh = some e)
    (hgen : ∀ x, s.ep.serdesInfifo.head? = some x →
      (machine P).passes s.ep x = true → Genuine kind s.chain x) :
    Linked { s with ep := e, chain := chain } p := by
  obtain ⟨g, hg, hreads, hreceives, hsupplies⟩ := h
  obtain ⟨x, rest, hx, hcases⟩ := Endpoint.rxDemarsh_cases ht
  rw [hx] at hreads
  -- whatever the flit is, the sender may lose it
  have hlose : ∀ e' : Endpoint P, e'.tx = s.ep.tx → e'.serdesInfifo = rest → Supplies e' →
      Linked { s with ep := e', chain := chain } p := by
    intro e' htx hin hs
    obtain ⟨g', hfollow, hreads'⟩ :=
      hreads.loseBack (List.sublist_cons_self x (rest ++ p.link))
    refine ⟨g', hg.steps hfollow.1, ?_, hreceives.mono hfollow.2, hs⟩
    rw [htx, hin]
    exact hreads'
  rcases hcases with ⟨_, hpay⟩ | ⟨_, rfl⟩ | ⟨hctl, rfl | ⟨htag, hok, rfl⟩⟩
  · obtain ⟨_, rfl⟩ | ⟨_, _, rfl⟩ := Endpoint.rxPayload_cases hpay
    · exact hlose _ rfl rfl hsupplies
    · exact hlose _ rfl rfl hsupplies
  · exact hlose _ rfl rfl hsupplies
  · exact hlose _ rfl rfl hsupplies
  · have hraw : x.raw = x.orig :=
      (hgen x (by rw [hx]; rfl) (by simp [machine, hok, hctl])).1
    refine ⟨g, hg, ⟨{ hreads.sends with books := { hreads.sends.books with } }, hreads.carries,
      hreads.returns.arrive ?_⟩, hreceives, hsupplies⟩
    show (if _ then _ else _) = _
    rw [if_pos (by rw [← hraw]; exact ⟨hctl, htag⟩), hraw]

/-- **Every rule of the sending endpoint** keeps the direction linked. -/
theorem Linked.sendRule (h : Linked s p) {r : Rule P} {out : Option (Raw P)}
    (hr : rule r s.ep = some (e, out))
    (hgen : ∀ x, (machine P).examines r s.ep = some x →
      (machine P).passes s.ep x = true → Genuine kind s.chain x) :
    Linked (s.fire (machine P) e out ((machine P).examines r s.ep)) p := by
  rcases rule_cases hr with ⟨rfl, hex, hsilent⟩ | ⟨f, rfl, hex, ht | ht | ht⟩ | ⟨rfl, hex, ht⟩
  · rw [hex, Side.fire_none]
    exact h.sendSilent hsilent
  · obtain ⟨hkind, hlinked⟩ := h.sendTxHeader ht
    rw [hex, Side.fire_chained (M := machine P) _ _ (show (kind f).chained = true by rw [hkind]; rfl)]
    exact hlinked
  · obtain ⟨hkind, hlinked⟩ := h.sendTxSend ht
    rw [hex, Side.fire_chained (M := machine P) _ _ (show (kind f).chained = true by rw [hkind]; rfl)]
    exact hlinked
  · obtain ⟨hkind, hlinked⟩ := h.sendTxFC ht
    rw [hex, Side.fire_control (M := machine P) _ _ (show (kind f).chained = false by rw [hkind]; rfl)]
    exact hlinked
  · rw [hex] at hgen ⊢
    obtain ⟨x, rest, hx, _⟩ := Endpoint.rxDemarsh_cases ht
    rw [hx, List.head?_cons, Side.fire_examined]
    exact h.sendRxDemarsh ht hgen

/-- **Every move of the sending endpoint or its link** keeps the direction linked. -/
theorem Linked.send (h : Linked s p) (hmove : Move (machine P) s p s' p') : Linked s' p' := by
  cases hmove with
  | rule r e out hr hgen => exact h.sendRule hr hgen
  | intake x rest e hp hin =>
    obtain ⟨g, hg, hreads, hreceives, hsupplies⟩ := h
    obtain rfl := Endpoint.rxIntake_cases hin
    refine ⟨g, hg, ?_, hreceives, hsupplies⟩
    rw [hp] at hreads
    simpa using hreads
  | drop pre post x hs =>
    obtain ⟨g, hg, hreads, hreceives, hsupplies⟩ := h
    have hlost : (pre ++ post).Sublist s.link := by
      rw [hs]
      exact (List.Sublist.refl pre).append (List.sublist_cons_self x post)
    obtain ⟨g', hfollow, hreads'⟩ := hreads.lose ((List.Sublist.refl p.ep.serdesInfifo).append hlost)
    exact ⟨g', hg.steps hfollow.1, hreads', hreceives.mono hfollow.2, hsupplies⟩
  | corrupt pre post x raw softErr hs =>
    obtain ⟨g, hg, hreads, hreceives, hsupplies⟩ := h
    refine ⟨g, hg, ⟨hreads.sends, ?_, hreads.returns⟩, hreceives, hsupplies⟩
    rw [← List.append_assoc]
    exact hreads.carries.alter (x := x) (by rw [hs, List.append_assoc]) rfl rfl

/-! ### The receiving endpoint moves -/

theorem Linked.recvSilent (h : Linked s p) (hs : Silent p.ep e) : Linked s { p with ep := e } := by
  obtain ⟨g, hg, hreads, hreceives, hsupplies⟩ := h
  refine ⟨g, hg, ?_, hs.receives _ _ hreceives, hsupplies⟩
  rw [hs.serdesInfifo, hs.ackSequenceNumberTX]
  exact hreads

/-- A flit that the receiving endpoint sends for its own data is no acknowledgement. -/
theorem Linked.recvChained (h : Linked s p) {f : Raw P}
    (ht : p.ep.txHeader = some (e, f) ∨ p.ep.txSend = some (e, f)) :
    (kind f).chained = true ∧
      Linked s { p with ep := e, link := p.link ++ [p.label f], sent := p.sent + 1 } := by
  obtain ⟨g, hg, hreads, hreceives, hsupplies⟩ := h
  have hother : (kind f).chained = true → Returns (reading P) s.ep.tx.ackRX
      (s.ep.serdesInfifo ++ (p.link ++ [p.label f])) p.ep.ackSequenceNumberTX g := by
    intro hkind
    rw [← List.append_assoc]
    refine hreads.returns.other (if_neg ?_)
    rintro ⟨hctl, _⟩
    rw [show kind f = .control from hctl] at hkind
    cases hkind
  rcases ht with ht | ht
  · unfold Endpoint.txHeader at ht
    split at ht
    · obtain ⟨⟨tx, seq⟩, _, heq⟩ := Option.map_eq_some_iff.mp ht
      obtain ⟨rfl, rfl⟩ := Prod.mk.inj heq
      have hkind : (kind (pack (P := P) 0 (controlTop header seq))).chained = true := by
        rw [kind_header]; rfl
      exact ⟨hkind, g, hg, { hreads with returns := hother hkind }, { hreceives with }, hsupplies⟩
    · cases ht
  · obtain ⟨⟨tx, d⟩, _, heq⟩ := Option.map_eq_some_iff.mp ht
    obtain ⟨rfl, rfl⟩ := Prod.mk.inj heq
    have hkind : (kind (pack p.ep.parityTX (payloadTop d))).chained = true := by
      rw [kind_payload]; rfl
    exact ⟨hkind, g, hg, { hreads with returns := hother hkind }, { hreceives with }, hsupplies⟩

theorem Linked.recvTxFC (h : Linked s p) {f : Raw P} (ht : p.ep.txFC = some (e, f)) :
    kind f = .control ∧ Linked s { p with ep := e, link := p.link ++ [p.label f] } := by
  obtain ⟨g, hg, hreads, hreceives, hsupplies⟩ := h
  obtain ⟨a, rest, ha, rfl, rfl⟩ := Endpoint.txFC_cases ht
  have hlt : a < 8 := hreads.returns.lt_of_mem (by rw [ha]; simp)
  refine ⟨kind_ack _ _, g, hg, { hreads with returns := ?_ }, { hreceives with }, hsupplies⟩
  show Returns (reading P) _ (s.ep.serdesInfifo ++ (p.link ++ [p.label _])) rest g
  rw [← List.append_assoc]
  refine hreads.returns.send ha ?_
  simp [reading, Side.label, kind_ack, sequenceOf_control _ _ hlt]

/-- Whether a flit is the one the receiver waits for, in the protocol's numbers. -/
theorem fresh_iff (hinv : GoBackN.Inv frameCounter.size maxFrames g) {chain : Option ℕ}
    (h : Receives e chain g) {f j : ℕ} (hcur : g.current = some (f, j)) (hj : j < frameCounter.size)
    (hseq : e.provisionalSequenceNumberRX = wrap f)
    (hpos : e.provisionalFramePositionRX = j % 128) :
    e.fresh = true ↔ (f, j) = (g.done, g.pos) := by
  obtain ⟨hlo, hle⟩ := hinv.current_window hcur
  have hj' : j < 128 := hj
  rw [Endpoint.fresh, Bool.and_eq_true, beq_iff_eq, beq_iff_eq, hseq, hpos, h.position, h.sequence,
    Nat.mod_eq_of_lt hj', Prod.mk.injEq, and_comm]
  refine and_congr_left fun _ => ⟨fun hwrap => ?_, fun hf => by rw [hf]⟩
  exact wrap_injOn_window hwrap hlo (by simp only [maxFrames]; omega) (Nat.le_add_right _ _)
    (by simp [maxFrames])

/-- The receiver accepts a payload flit: the two sides take the same of the four ways. -/
theorem Receives.accept (hinv : GoBackN.Inv frameCounter.size maxFrames g) {chain : Option ℕ}
    (h : Receives e chain g) {f j : ℕ} (hcur : g.current = some (f, j)) (hj : j < frameCounter.size)
    (hseq : e.provisionalSequenceNumberRX = wrap f)
    (hpos : e.provisionalFramePositionRX = j % 128) {chain' : Option ℕ} {d : Data P} {w : List ℕ}
    (hchain : Chained chain' (accepted frameCounter.size g f j d w) f (j + 1)) {hash : BitVec 8}
    {acks : List ℕ} {word : List (Data P)} :
    Receives { e with
        parityRX := hash
        provisionalFramePositionRX := frameCounter.succ e.provisionalFramePositionRX
        demarshaller := word
        handed := if e.fresh then e.handed ++ [d] else e.handed
        frameErrorRX := e.fresh && frameCounter.isLast e.framePositionRX
        sequenceNumberRX :=
          if e.fresh && frameCounter.isLast e.framePositionRX then
            (e.sequenceNumberRX + 1) % sequenceNumbers
          else e.sequenceNumberRX
        framePositionRX :=
          if e.fresh then frameCounter.succ e.framePositionRX else e.framePositionRX
        ackSequenceNumberTX := acks }
      chain' (accepted frameCounter.size g f j d w) := by
  have hfresh := fresh_iff hinv h hcur hj hseq hpos
  have hlast : frameCounter.isLast e.framePositionRX = true ↔ g.pos + 1 = frameCounter.size := by
    rw [h.position]
    exact FrameCounter.isLast_iff hinv.pos_lt
  have hboth : (e.fresh && frameCounter.isLast e.framePositionRX) = true ↔
      (f, j) = (g.done, g.pos) ∧ j + 1 = frameCounter.size := by
    rw [Bool.and_eq_true, hfresh, hlast]
    refine and_congr_right fun heq => ?_
    rw [(Prod.mk.inj heq).2]
  refine ⟨fun _ => ⟨f, j + 1, rfl, hseq, ?_, hchain⟩, ?_, ?_, ?_⟩
  · show frameCounter.succ e.provisionalFramePositionRX = _
    rw [hpos, FrameCounter.succ]
    show (j % 128 + 1) % 128 = (j + 1) % 128
    omega
  · show (if e.fresh = true then _ else _) = if (f, j) = (g.done, g.pos) then _ else _
    simp only [hfresh, h.position]
    have hj' : j < 128 := hj
    by_cases heq : (f, j) = (g.done, g.pos)
    · rw [if_pos heq, if_pos heq, ← (Prod.mk.inj heq).2]
      show (j + 1) % 128 = if j + 1 = 128 then 0 else j + 1
      split <;> omega
    · rw [if_neg heq, if_neg heq]
  · show (if (e.fresh && frameCounter.isLast e.framePositionRX) = true then _ else _) =
      wrap (if _ then _ else _)
    simp only [hboth, h.sequence]
    split
    · exact wrap_succ _
    · rfl
  · show (if e.fresh = true then _ else _) = if (f, j) = (g.done, g.pos) then _ else _
    simp only [hfresh, h.handed]

/-- **The receiver examines a flit.** What it drops the link could have lost, what it accepts is
what the protocol accepts. -/
theorem Linked.recvRxDemarsh (h : Linked s p) (ht : p.ep.rxDemarsh = some e)
    {x : Flit (Raw P)} {rest : List (Flit (Raw P))} (hx : p.ep.serdesInfifo = x :: rest)
    (hgen : (machine P).passes p.ep x = true → Genuine kind p.chain x) :
    Linked s { p with ep := e, chain := observe kind p.chain x } := by
  obtain ⟨g, hg, hreads, hreceives, hsupplies⟩ := h
  have hinv := inv_of_reachable hg
  obtain ⟨y, rest', hy, hcases⟩ := Endpoint.rxDemarsh_cases ht
  obtain ⟨rfl, rfl⟩ := List.cons.inj (hy.symm.trans hx)
  rw [hx, List.cons_append] at hreads
  -- a flit that is dropped
  have hlose : ∀ e' : Endpoint P, e'.serdesInfifo = rest' →
      e'.ackSequenceNumberTX = p.ep.ackSequenceNumberTX →
      Receives e' (observe kind p.chain y) g →
      Linked s { p with ep := e', chain := observe kind p.chain y } := by
    intro e' hin hack hrec
    obtain ⟨g', hfollow, hreads'⟩ := hreads.lose (List.sublist_cons_self _ _)
    refine ⟨g', hg.steps hfollow.1, ?_, hrec.mono hfollow.2, hsupplies⟩
    rw [hin, hack]
    exact hreads'
  rcases hcases with ⟨hkind, hpay⟩ | ⟨hkind, rfl⟩ | ⟨hkind, hctl⟩
  · rcases Endpoint.rxPayload_cases hpay with ⟨_, rfl⟩ | ⟨hok, herr, rfl⟩
    · exact hlose _ rfl rfl { hreceives with following := by simp }
    · -- a genuine payload flit, in the place the receiver's chain says
      have herr' : p.ep.frameErrorRX = false := herr
      obtain ⟨hraw, hnext⟩ := hgen (by simp [machine, hok, herr'])
      obtain ⟨f, j, hcur, hseq, hpos, hchain⟩ := hreceives.following herr
      rw [hnext hkind] at hchain
      have hkind' : (reading P).kind y.orig = .payload := hraw ▸ hkind
      obtain ⟨d, w, henc, hj, hstep, hreads', hchain'⟩ :=
        hreads.accept hinv hkind' hcur hchain
      have hd : dataOf y.raw = d := by
        obtain ⟨salt, hpack⟩ := henc
        rw [hraw, hpack, dataOf_payload]
      have hobserve : observe kind p.chain y = some (y.seqno + 1) := by
        simp [observe, hkind, hraw.symm, hnext hkind]
      have hj' : j < 128 := hj
      have hlast : frameCounter.isLast p.ep.provisionalFramePositionRX = true ↔
          j + 1 = frameCounter.size := by
        rw [hpos, Nat.mod_eq_of_lt hj']
        exact FrameCounter.isLast_iff hj
      refine ⟨_, hg.step hstep, ?_, ?_, hsupplies⟩
      · simp only [hlast, hseq]
        exact hreads'
      · have hrec : Receives { p.ep with serdesInfifo := rest' } p.chain g := { hreceives with }
        rw [hobserve, hd]
        exact hrec.accept hinv hcur hj hseq hpos hchain'
  · cases hnew : (p.ep.rxHeader (notCorrupt p.ep.parityRX y.softErr y.raw)
        (hashRX p.ep.parityRX y.raw) (sequenceOf y.raw)).frameErrorRX with
    | true =>
      refine hlose _ rfl rfl { hreceives with following := fun herr => ?_ }
      exact absurd (herr.symm.trans hnew) (by simp)
    | false =>
      -- a genuine header of a frame that is not beyond the receiver's
      obtain ⟨hfuture, hok⟩ : futureFrame p.ep.sequenceNumberRX (sequenceOf y.raw) = false ∧
          notCorrupt p.ep.parityRX y.softErr y.raw = true := by
        simpa [Endpoint.rxHeader] using hnew
      have hraw := (hgen (by simp [machine, hok, hkind])).1
      have hkind' : (reading P).kind y.orig = .header := hraw ▸ hkind
      obtain ⟨f, w, henc, hlo, hhi, haccept⟩ := hreads.header hinv hkind'
      have hseq : sequenceOf y.raw = wrap f := by
        rw [hraw, show y.orig = _ from henc, sequenceOf_control _ _ (wrap_lt f)]
      have hle : f ≤ g.done := by
        rw [hreceives.sequence, hseq, futureFrame_wrap hlo hhi, decide_eq_false_iff_not] at hfuture
        omega
      obtain ⟨hstep, hreads', hchain'⟩ := haccept hle
      have hobserve : observe kind p.chain y = some (y.seqno + 1) := by
        simp [observe, hkind, hraw.symm]
      refine ⟨_, hg.step hstep, hreads', ?_, hsupplies⟩
      rw [hobserve]
      exact { hreceives with following := fun _ => ⟨f, 0, rfl, hseq, rfl, hchain'⟩ }
  · have hobserve : observe kind p.chain y = p.chain := by
      simp [observe, hkind]
    rcases hctl with rfl | ⟨_, _, rfl⟩
    · exact hlose _ rfl rfl (by rw [hobserve]; exact { hreceives with })
    · exact hlose _ rfl rfl (by rw [hobserve]; exact { hreceives with })

/-- **Every move of the receiving endpoint or its link** keeps the direction linked. -/
theorem Linked.recv (h : Linked s p) (hmove : Move (machine P) p s p' s') : Linked s' p' := by
  cases hmove with
  | rule r e out hr hgen =>
    rcases rule_cases hr with ⟨rfl, hex, hsilent⟩ | ⟨f, rfl, hex, ht⟩ | ⟨rfl, hex, ht⟩
    · rw [hex, Side.fire_none]
      exact h.recvSilent hsilent
    · rw [hex]
      rcases or_assoc.mpr ht with ht | ht
      · obtain ⟨hkind, hlinked⟩ := h.recvChained ht
        rw [Side.fire_chained (M := machine P) _ _ hkind]
        exact hlinked
      · obtain ⟨hkind, hlinked⟩ := h.recvTxFC ht
        rw [Side.fire_control (M := machine P) _ _
          (show (kind f).chained = false by rw [hkind]; rfl)]
        exact hlinked
    · rw [hex] at hgen ⊢
      obtain ⟨x, rest, hx, _⟩ := Endpoint.rxDemarsh_cases ht
      rw [hx, List.head?_cons] at hgen ⊢
      rw [Side.fire_examined]
      exact h.recvRxDemarsh ht hx (hgen x rfl)
  | intake x rest e hp hin =>
    obtain ⟨g, hg, hreads, hreceives, hsupplies⟩ := h
    obtain rfl := Endpoint.rxIntake_cases hin
    refine ⟨g, hg, ?_, { hreceives with }, hsupplies⟩
    rw [hp] at hreads
    simpa using hreads
  | drop pre post x hs =>
    obtain ⟨g, hg, hreads, hreceives, hsupplies⟩ := h
    have hlost : (pre ++ post).Sublist p.link := by
      rw [hs]
      exact (List.Sublist.refl pre).append (List.sublist_cons_self x post)
    obtain ⟨g', hfollow, hreads'⟩ :=
      hreads.loseBack ((List.Sublist.refl s.ep.serdesInfifo).append hlost)
    exact ⟨g', hg.steps hfollow.1, hreads', hreceives.mono hfollow.2, hsupplies⟩
  | corrupt pre post x raw softErr hs =>
    obtain ⟨g, hg, hreads, hreceives, hsupplies⟩ := h
    refine ⟨g, hg, { hreads with returns := ?_ }, hreceives, hsupplies⟩
    rw [← List.append_assoc]
    exact hreads.returns.alter (x := x) (by rw [hs, List.append_assoc]) rfl

theorem sends_reset : Sends frameCounter (Sender.reset : Sender (Data P)) State.start where
  books := Sender.bookkeeping_reset
  source := rfl
  base := rfl
  outstanding := rfl
  sending := rfl
  pending := rfl
  next := rfl

theorem linked_reset : Linked (Side.reset (machine P)) (Side.reset (machine P)) := by
  refine ⟨State.start, .init rfl, ⟨sends_reset, ⟨rfl, rfl, ?_⟩, rfl⟩, ⟨?_, rfl, rfl, rfl⟩, rfl⟩
  · simp [Side.reset, machine, Endpoint.reset]
  · simp [Side.reset, machine, Endpoint.reset]

/-- Both directions between two endpoints are read as the protocol, in every reachable state. -/
theorem linked_of_reachable {d : Duplex (Endpoint P) (Raw P)}
    (h : (LossyLink.system (machine P)).Reachable d) : Linked d.a d.b ∧ Linked d.b d.a :=
  LossyLink.directed linked_reset (fun _ _ _ _ => Linked.send) (fun _ _ _ _ => Linked.recv) h

/-! ### What the driver delivers -/

theorem Linked.handed_isPrefix (h : Linked s p) :
    p.ep.handed <+: s.ep.given.flatMap (Marshal.split P.interfaceWords) := by
  obtain ⟨g, hg, hreads, hreceives, hsupplies⟩ := h
  rw [hreceives.handed, ← hsupplies, List.append_assoc, ← hreads.sends.source]
  exact (inv_of_reachable hg).delivered_isPrefix.trans (List.prefix_append _ _)

/-- A driver with words of 128 flits of twelve bits, and the checksum of a polynomial of degree
eight. -/
def sampleParams : Params where
  controlDataSize := 3
  controlDataSize_ge := Nat.le_refl _
  interfaceWords := 128
  interfaceWords_pos := Nat.succ_pos _
  requireCC := false
  nextChunk init chunk := Crc.hash 0x107 init chunk

/-- One word is given, sent as a frame, received and acknowledged. -/
def sampleTurns : List (Bool × LossyLink.Turn (Rule sampleParams) (Raw sampleParams)) :=
  [(true, .rule (.write 5)), (true, .rule .crossDomain), (true, .rule .sequenceStuffer),
    (true, .rule .txHeader), (false, .intake), (false, .rule .rxDemarsh)] ++
  (List.replicate 128 [(true, .rule .passRewind), (true, .rule .txSend), (false, .intake),
    (false, .rule .rxDemarsh)]).flatten ++
  [(false, .rule .txFC), (true, .intake), (true, .rule .rxDemarsh)]

set_option maxRecDepth 4000 in
theorem sample_reachable : ∃ d, (LossyLink.system (machine sampleParams)).Reachable d ∧
    d.a.ep.tx.ackSequenceNumberRX.head? = some 0 ∧ d.a.ep.tx.ackRX.head? = some 0 ∧
    d.b.ep.handed.length = 128 := by
  have hrun : ((LossyLink.run (machine sampleParams) sampleTurns
      (Duplex.reset (machine sampleParams))).map fun d =>
        (d.a.ep.tx.ackSequenceNumberRX.head?, d.a.ep.tx.ackRX.head?, d.b.ep.handed.length)) =
      some (some 0, some 0, 128) := by
    decide +kernel
  obtain ⟨d, hd, heq⟩ := Option.map_eq_some_iff.mp hrun
  simp only [Prod.mk.injEq] at heq
  exact ⟨d, LossyLink.run_reachable (.init rfl) hd, heq⟩

/-- **In-order exactly-once delivery.** In every reachable state of two endpoints over links that
lose and alter flits, what each endpoint handed to its demarshaller is the beginning of what the
other's user gave, cut into data flits. -/
theorem exactly_once_in_order (P : Params) (d : Duplex (Endpoint P) (Raw P))
    (h : (LossyLink.system (machine P)).Reachable d) :
    d.b.ep.handed <+: d.a.ep.given.flatMap (Marshal.split P.interfaceWords) ∧
      d.a.ep.handed <+: d.b.ep.given.flatMap (Marshal.split P.interfaceWords) :=
  ⟨(linked_of_reachable h).1.handed_isPrefix, (linked_of_reachable h).2.handed_isPrefix⟩

theorem exactly_once_in_order_sample : ∃ d : Duplex (Endpoint sampleParams) (Raw sampleParams),
    (LossyLink.system (machine sampleParams)).Reachable d ∧ d.b.ep.handed.length = 128 ∧
      d.b.ep.handed <+: d.a.ep.given.flatMap (Marshal.split 128) ∧
      d.a.ep.handed <+: d.b.ep.given.flatMap (Marshal.split 128) := by
  obtain ⟨d, hd, _, _, hlen⟩ := sample_reachable
  exact ⟨d, hd, hlen, exactly_once_in_order sampleParams d hd⟩

/-- **Commit safety.** When an acknowledgement matches the oldest outstanding frame, the rule
`handleAck` gives up 128 data flits and the frame's sequence number, and the peer has handed on
all the data flits given up so far, these 128 among them, each in its place. -/
theorem commit_delivered (P : Params) (d : Duplex (Endpoint P) (Raw P))
    (h : (LossyLink.system (machine P)).Reachable d) (s p : Side (Endpoint P) (Raw P))
    (hsides : (s = d.a ∧ p = d.b) ∨ (s = d.b ∧ p = d.a)) (seq : ℕ)
    (hexpected : s.ep.tx.ackSequenceNumberRX.head? = some seq)
    (hgot : s.ep.tx.ackRX.head? = some seq) :
    ∃ e frame, s.ep.handleAck = some e ∧ frame.length = 128 ∧
      s.ep.tx.txDataRewindBuffer.taken = frame ++ e.tx.txDataRewindBuffer.taken ∧
      s.ep.tx.txSequenceRewindBuffer.taken = seq :: e.tx.txSequenceRewindBuffer.taken ∧
      s.ep.tx.txDataRewindBuffer.committed ++ frame = e.tx.txDataRewindBuffer.committed ∧
      e.tx.txDataRewindBuffer.committed <+: p.ep.handed := by
  have hlinked : Linked s p := by
    rcases hsides with ⟨rfl, rfl⟩ | ⟨rfl, rfl⟩
    · exact (linked_of_reachable h).1
    · exact (linked_of_reachable h).2
  obtain ⟨g, hg, hreads, hreceives, _⟩ := hlinked
  obtain ⟨acks, hacks⟩ := List.head?_eq_some_iff.mp hexpected
  obtain ⟨rest, hrx⟩ := List.head?_eq_some_iff.mp hgot
  have hbooks := hreads.sends.books
  have hlen : (s.ep.tx.txDataRewindBuffer.taken.take 128).length = 128 := by
    have : 128 ≤ s.ep.tx.txDataRewindBuffer.taken.length := hbooks.size_le_taken hacks
    rw [List.length_take]
    omega
  refine ⟨_, s.ep.tx.txDataRewindBuffer.taken.take 128,
    by rw [Endpoint.handleAck, hbooks.handleAck_ready hacks hrx]; rfl, hlen, ?_, ?_, rfl, ?_⟩
  · exact (List.take_append_drop 128 _).symm
  · show _ = seq :: s.ep.tx.txSequenceRewindBuffer.taken.drop 1
    rw [hbooks.sequence_taken, hacks]
    rfl
  · rw [hreceives.handed]
    exact hreads.commit_safe (inv_of_reachable hg) hacks hrx

theorem commit_delivered_sample : ∃ d : Duplex (Endpoint sampleParams) (Raw sampleParams),
    ∃ e frame, d.a.ep.handleAck = some e ∧ frame.length = 128 ∧
      d.a.ep.tx.txDataRewindBuffer.taken = frame ++ e.tx.txDataRewindBuffer.taken ∧
      d.a.ep.tx.txSequenceRewindBuffer.taken = 0 :: e.tx.txSequenceRewindBuffer.taken ∧
      d.a.ep.tx.txDataRewindBuffer.committed ++ frame = e.tx.txDataRewindBuffer.committed ∧
      e.tx.txDataRewindBuffer.committed <+: d.b.ep.handed := by
  obtain ⟨d, hd, hexpected, hgot, _⟩ := sample_reachable
  exact ⟨d, commit_delivered sampleParams d hd d.a d.b (Or.inl ⟨rfl, rfl⟩) 0 hexpected hgot⟩

end Reliable

end Aurora

end LeapPlatforms
