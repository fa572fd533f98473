import LeapPlatforms.Aurora.GroupedPath

/-!
# Two drivers with grouped checksums

Any machine on a link whose rules act on the registers of `Core` in one of the ways listed here
(`Effect`) delivers the words that its peer was given, in order and exactly once. A driver is such a
machine together with the proof that its rules do nothing else; what remains for the two drivers of
this kind is that proof.

## Main definitions

* `Silent`, `Examines`, `Effect` — what a rule may do
* `Driver` — a machine whose rules do that
* `Linked` — one direction between two endpoints

## Main results

* `Driver.linked_of_reachable`
* `Driver.enqueued_isPrefix` — in-order exactly-once delivery
* `Driver.enqueued_groups` — every word is one group
-/

namespace LeapPlatforms

namespace Aurora

open LossyLink (Flit Kind Machine Side Duplex Move Genuine observe)
open GoBackN (State Token)

namespace Grouped

variable {F : Format}

/-- The data flits of words. -/
def fragments (ws : List (Word F)) : List (Data F) :=
  ws.flatMap fun w => Marshal.split F.interfaceWords (pad w)

/-- The user's words, cut into data flits, are what the sender was given and what it will be, and
the sender knows where it is in a word. -/
structure Supplies (e : Core F) : Prop where
  /-- The words. -/
  stream : e.tx.txDataRewindBuffer.stream ++ e.marshaller ++ fragments e.serdesTxfifo =
    fragments e.given
  /-- The position in the word being sent. -/
  fragment : e.tx.frameInProgress = true →
    e.fragmentNumberTX = e.tx.framePositionTX % F.interfaceWords

/-- The rule neither sends nor examines a flit. -/
structure Silent (e e' : Core F) : Prop where
  /-- The transmit side, by one of its silent rules. -/
  tx : e'.tx = e.tx ∨ Sender.Quiet F.frameCounter e.tx e'.tx
  /-- Flits received. -/
  serdesInfifo : e'.serdesInfifo = e.serdesInfifo
  /-- The user's words. -/
  supplies : Supplies e → Supplies e'
  /-- The receiver. -/
  path : ∀ {tx queue sent back chain}, Path tx queue sent back e chain →
    Path tx queue sent back e' chain

/-- What a receive rule may do with a flit that it took out of the queue. -/
inductive Examines (e : Core F) (x : Flit (Raw F)) : Core F → Prop
  /-- A payload flit inside a group. -/
  | hold {e' : Core F} : e.frameErrorRX = false → kind x.raw = .payload → e.endsGroup = false →
      Core.Accepts e x e' → Core.SameTransmit e e' → Examines e x e'
  /-- The last payload flit of a group whose checksum is right. -/
  | complete {e' : Core F} : e.frameErrorRX = false → kind x.raw = .payload →
      e.endsGroup = true → e.passes x = true → Core.Accepts e x e' → Core.SameTransmit e e' →
      Examines e x e'
  /-- A payload flit of a group that fails. -/
  | fail {e' : Core F} : e.frameErrorRX = false → kind x.raw = .payload →
      e'.frameErrorRX = true → RolledBack e e' → Core.SameTransmit e e' → Examines e x e'
  /-- A payload flit in a frame with an error. -/
  | skip {e' : Core F} : e.frameErrorRX = true → kind x.raw = .payload →
      e'.frameErrorRX = true → SameClosed e e' → Core.SameTransmit e e' → Examines e x e'
  /-- A header: the group that is open is given up, and the frame starts unless it lies beyond. -/
  | header {e₀ : Core F} {err : Bool} : kind x.raw = .header →
      (e.frameErrorRX = false ∧ RolledBack e e₀ ∨ e.frameErrorRX = true ∧ SameClosed e e₀) →
      Core.SameTransmit e e₀ →
      (err = false → futureFrame e.sequenceNumberRX (sequenceOf x.raw) = false) →
      Examines e x (e₀.newFrame x err)
  /-- An acknowledgement. -/
  | ack : kind x.raw = .control → tagOf x.raw = F.ack → e.passes x = true →
      Examines e x { e with tx := { e.tx with ackRX := e.tx.ackRX ++ [sequenceOf x.raw] } }
  /-- A control flit of which the shared registers see nothing. -/
  | ignore : kind x.raw = .control → Examines e x e

/-- What a rule may do: the state after it, the flit that it sent and the flit that it took out of
the queue. -/
inductive Effect (e : Core F) : Core F → Option (Raw F) → Option (Flit (Raw F)) → Prop
  | silent {e' : Core F} : Silent e e' → Effect e e' none none
  | txHeader {e' : Core F} {f : Raw F} : e.txHeader = some (e', f) → Effect e e' (some f) none
  | txSend {e' : Core F} {f : Raw F} : e.txSend = some (e', f) → Effect e e' (some f) none
  | txACK {e' : Core F} {f : Raw F} : e.txACK = some (e', f) → Effect e e' (some f) none
  /-- A control flit that is no acknowledgement. -/
  | other {f : Raw F} : kind f = .control → tagOf f ≠ F.ack → Effect e e (some f) none
  | examine {e' : Core F} {x : Flit (Raw F)} {rest : List (Flit (Raw F))} :
      e.serdesInfifo = x :: rest → Examines { e with serdesInfifo := rest } x e' →
      Effect e e' none (some x)

/-- A machine on a link that works on the shared registers. -/
structure Driver (F : Format) (σ ρ : Type) where
  /-- The machine. -/
  machine : Machine σ ρ (Raw F)
  /-- Its shared registers. -/
  core : σ → Core F
  /-- Flits are read as the shared registers read them. -/
  kind_eq : machine.kind = kind
  /-- So are checksums. -/
  passes_eq : ∀ s, machine.passes s = (core s).passes
  /-- The machine starts at reset. -/
  reset : core machine.reset = .reset F
  /-- Flits arrive in the receive queue. -/
  intake : ∀ x s s', machine.intake x s = some s' →
    core s' = { core s with serdesInfifo := (core s).serdesInfifo ++ [x] }
  /-- Every rule does one of the things listed. -/
  effect : ∀ r s s' out, machine.rule r s = some (s', out) →
    Effect (core s) (core s') out (machine.examines r s)

/-! ### Rules that a link does not see -/

variable {e e' : Core F}

theorem Silent.of_supplies (hs : SameReceive e e')
    (htx : e'.tx = e.tx ∨ Sender.Quiet F.frameCounter e.tx e'.tx)
    (hin : e'.serdesInfifo = e.serdesInfifo) (hsupplies : Supplies e → Supplies e') :
    Silent e e' := ⟨htx, hin, hsupplies, fun h => h.congr hs⟩

/-- A silent rule of the transmit side that leaves the stream of data flits as it is, and the frame
in progress unless it ends it. -/
theorem silent_of_quiet {tx : Sender (Data F)} (hq : Sender.Quiet F.frameCounter e.tx tx)
    (hstream : tx.txDataRewindBuffer.stream = e.tx.txDataRewindBuffer.stream)
    (hframe : tx.frameInProgress = true →
      e.tx.frameInProgress = true ∧ tx.framePositionTX = e.tx.framePositionTX) :
    Silent e { e with tx := tx } := by
  refine .of_supplies (by constructor <;> rfl) (Or.inr hq) rfl fun h => ⟨?_, fun hp => ?_⟩
  · show tx.txDataRewindBuffer.stream ++ _ ++ _ = _
    rw [hstream]
    exact h.stream
  · obtain ⟨hprogress, hposition⟩ := hframe hp
    show e.fragmentNumberTX = tx.framePositionTX % _
    rw [hposition]
    exact h.fragment hprogress

theorem silent_timerCount : Silent e e.timerCount :=
  silent_of_quiet (.timerCount _) rfl fun h => ⟨h, rfl⟩

theorem silent_write {w : Word F} (h : e.write w = some e') : Silent e e' := by
  rw [Core.write] at h
  split at h
  · obtain rfl := Option.some.inj h
    refine .of_supplies (by constructor <;> rfl) (Or.inl rfl) rfl fun hs => ⟨?_, hs.fragment⟩
    have hstream := hs.stream
    simp only [fragments, List.flatMap_append] at hstream ⊢
    rw [← hstream]
    simp
  · cases h

theorem silent_crossDomain (h : e.crossDomain = some e') : Silent e e' := by
  rw [Core.crossDomain] at h
  split at h
  · next w rest hf hm =>
    obtain rfl := Option.some.inj h
    refine .of_supplies (by constructor <;> rfl) (Or.inl rfl) rfl fun hs => ⟨?_, hs.fragment⟩
    have hstream := hs.stream
    rw [hf, hm] at hstream
    simpa [fragments] using hstream
  · cases h

theorem silent_passRewind (h : e.passRewind = some e') : Silent e e' := by
  rw [Core.passRewind] at h
  split at h
  · cases h
  · next d rest hm =>
    obtain ⟨tx, htx, rfl⟩ := Option.map_eq_some_iff.mp h
    refine .of_supplies (by constructor <;> rfl) (Or.inr (.passRewind _ _ d htx)) rfl fun hs => ?_
    obtain rfl := Sender.passRewind_cases htx
    refine ⟨?_, hs.fragment⟩
    have hstream := hs.stream
    rw [hm] at hstream
    simpa using hstream

theorem silent_sequenceStuffer (h : e.sequenceStuffer = some e') : Silent e e' := by
  obtain ⟨tx, htx, rfl⟩ := Option.map_eq_some_iff.mp h
  have hq := Sender.Quiet.sequenceStuffer (C := F.frameCounter) _ _ htx
  obtain ⟨_, rfl⟩ := Sender.sequenceStuffer_cases htx
  exact silent_of_quiet hq rfl fun h => ⟨h, rfl⟩

theorem silent_handleAck (h : e.handleAck = some e') : Silent e e' := by
  obtain ⟨tx, htx, rfl⟩ := Option.map_eq_some_iff.mp h
  have hq := Sender.Quiet.handleAck _ _ htx
  obtain ⟨_, _, _, _, _, _, ⟨_, rfl⟩ | ⟨_, _, _, _, rfl⟩⟩ := Sender.handleAck_cases htx
  · exact silent_of_quiet hq rfl fun h => ⟨h, rfl⟩
  · exact silent_of_quiet hq (by simp) fun h => ⟨h, rfl⟩

theorem silent_dropAck (h : e.dropAck = some e') : Silent e e' := by
  obtain ⟨tx, htx, rfl⟩ := Option.map_eq_some_iff.mp h
  have hq := Sender.Quiet.dropAck (C := F.frameCounter) _ _ htx
  obtain ⟨_, _, _, _, rfl⟩ := Sender.dropAck_cases htx
  exact silent_of_quiet hq rfl fun h => ⟨h, rfl⟩

theorem silent_timeout (h : e.timeout = some e') : Silent e e' := by
  rw [Core.timeout] at h
  split at h
  · cases h
  · split at h
    · obtain rfl := Option.some.inj h
      exact silent_of_quiet (.timeout _) (RewindFifo.stream_rewind _) (by rintro ⟨⟩)
    · cases h

theorem silent_rxDone (h : e.rxDone = some e') : Silent e e' := by
  obtain ⟨_, heq⟩ := Core.rxDone_cases h
  have htx : e'.tx = e.tx := by rw [heq]
  have hin : e'.serdesInfifo = e.serdesInfifo := by rw [heq]
  refine ⟨Or.inl htx, hin, fun hs => ?_, fun hp => hp.rxDone h⟩
  rw [heq]
  exact ⟨hs.stream, hs.fragment⟩

theorem silent_deq (h : e.deq = some e') : Silent e e' := by
  rw [Core.deq] at h
  split at h
  · cases h
  · obtain rfl := Option.some.inj h
    exact .of_supplies (by constructor <;> rfl) (Or.inl rfl) rfl fun hs => ⟨hs.stream, hs.fragment⟩

/-- A rule that works on registers of the driver alone. -/
theorem silent_refl : Silent e e := ⟨Or.inl rfl, rfl, id, id⟩

theorem quiet_cases {q : Option (Core F)} {out : Option (Raw F)}
    (h : Core.quiet q = some (e', out)) : q = some e' ∧ out = none := by
  obtain ⟨c, hc, heq⟩ := Option.map_eq_some_iff.mp h
  obtain ⟨rfl, rfl⟩ := Prod.mk.inj heq
  exact ⟨hc, rfl⟩

/-- A rule that sends nothing and is silent. -/
theorem effect_quiet {r : Option (Core F)} {out : Option (Raw F)}
    (h : Core.quiet r = some (e', out)) (hs : ∀ e', r = some e' → Silent e e') :
    Effect e e' out none := by
  obtain ⟨hc, rfl⟩ := quiet_cases h
  exact .silent (hs _ hc)

theorem send_cases {r : Option (Core F × Raw F)} {out : Option (Raw F)}
    (h : Core.send r = some (e', out)) : ∃ f, out = some f ∧ r = some (e', f) := by
  obtain ⟨⟨c, f⟩, hc, heq⟩ := Option.map_eq_some_iff.mp h
  obtain ⟨rfl, rfl⟩ := Prod.mk.inj heq
  exact ⟨f, rfl, hc⟩

/-- The rules that the drivers have in common do what a driver may do. -/
theorem effect_shared (r : SharedRule F) {out : Option (Raw F)} (h : r.rule e = some (e', out)) :
    Effect e e' out none := by
  cases r with
  | timerCount => exact effect_quiet h (by rintro c ⟨⟩; exact silent_timerCount)
  | sequenceStuffer => exact effect_quiet h fun _ => silent_sequenceStuffer
  | passRewind => exact effect_quiet h fun _ => silent_passRewind
  | crossDomain => exact effect_quiet h fun _ => silent_crossDomain
  | timeout => exact effect_quiet h fun _ => silent_timeout
  | txSend =>
    obtain ⟨f, rfl, ht⟩ := send_cases h
    exact .txSend ht
  | handleAck => exact effect_quiet h fun _ => silent_handleAck
  | dropAck => exact effect_quiet h fun _ => silent_dropAck
  | rxDone => exact effect_quiet h fun _ => silent_rxDone
  | write w => exact effect_quiet h fun _ => silent_write
  | deq => exact effect_quiet h fun _ => silent_deq

/-- A payload flit that is not corrupt, at the end of a group, passed its check. -/
theorem passes_of_notCorrupt {x : Flit (Raw F)} (hkind : kind x.raw = .payload)
    (hend : e.endsGroup = true) (herr : e.frameErrorRX = false) (hok : e.notCorrupt x = true) :
    e.passes x = true := by
  simp only [Core.notCorrupt, hend, Bool.not_true, Bool.and_false, Bool.or_false] at hok
  rw [Core.passes, hok, hkind, hend, herr]
  rfl

/-- What stays as it is unless flits are sent or examined. -/
structure SameFlits (e e' : Core F) : Prop where
  receive : SameReceive e e'
  serdesInfifo : e'.serdesInfifo = e.serdesInfifo
  parityRX : e'.parityRX = e.parityRX
  parityTX : e'.parityTX = e.parityTX
  fragmentNumberTX : e'.fragmentNumberTX = e.fragmentNumberTX

/-- What the rules that the drivers have in common do: one sends a data flit, one ends a frame, and
the others neither send nor examine. -/
inductive SharedDoes (e e' : Core F) : Option (Raw F) → Prop
  | quiet : SameFlits e e' → SharedDoes e e' none
  | rxDone : e.rxDone = some e' → SharedDoes e e' none
  | txSend {f : Raw F} : e.txSend = some (e', f) → SharedDoes e e' (some f)

theorem shared_does (r : SharedRule F) {out : Option (Raw F)} (h : r.rule e = some (e', out)) :
    SharedDoes e e' out := by
  -- a rule that maps the transmit side
  have htx : ∀ q : Option (Sender (Data F)),
      Core.quiet (q.map fun tx => { e with tx := tx }) = some (e', out) → SharedDoes e e' out := by
    intro q hq
    obtain ⟨hc, rfl⟩ := quiet_cases hq
    obtain ⟨tx, _, rfl⟩ := Option.map_eq_some_iff.mp hc
    exact .quiet ⟨by constructor <;> rfl, rfl, rfl, rfl, rfl⟩
  cases r with
  | timerCount =>
    obtain ⟨hc, rfl⟩ := quiet_cases h
    obtain rfl := Option.some.inj hc
    exact .quiet ⟨by constructor <;> rfl, rfl, rfl, rfl, rfl⟩
  | sequenceStuffer => exact htx _ h
  | handleAck => exact htx _ h
  | dropAck => exact htx _ h
  | rxDone =>
    obtain ⟨hc, rfl⟩ := quiet_cases h
    exact .rxDone hc
  | passRewind =>
    obtain ⟨hc, rfl⟩ := quiet_cases h
    rw [Core.passRewind] at hc
    split at hc
    · cases hc
    · obtain ⟨tx, _, rfl⟩ := Option.map_eq_some_iff.mp hc
      exact .quiet ⟨by constructor <;> rfl, rfl, rfl, rfl, rfl⟩
  | crossDomain =>
    obtain ⟨hc, rfl⟩ := quiet_cases h
    rw [Core.crossDomain] at hc
    split at hc
    · obtain rfl := Option.some.inj hc
      exact .quiet ⟨by constructor <;> rfl, rfl, rfl, rfl, rfl⟩
    · cases hc
  | timeout =>
    obtain ⟨hc, rfl⟩ := quiet_cases h
    rw [Core.timeout] at hc
    split at hc
    · cases hc
    · split at hc
      · obtain rfl := Option.some.inj hc
        exact .quiet ⟨by constructor <;> rfl, rfl, rfl, rfl, rfl⟩
      · cases hc
  | txSend =>
    obtain ⟨f, rfl, ht⟩ := send_cases h
    exact .txSend ht
  | write w =>
    obtain ⟨hc, rfl⟩ := quiet_cases h
    rw [Core.write] at hc
    split at hc
    · obtain rfl := Option.some.inj hc
      exact .quiet ⟨by constructor <;> rfl, rfl, rfl, rfl, rfl⟩
    · cases hc
  | deq =>
    obtain ⟨hc, rfl⟩ := quiet_cases h
    rw [Core.deq] at hc
    split at hc
    · cases hc
    · obtain rfl := Option.some.inj hc
      exact .quiet ⟨by constructor <;> rfl, rfl, rfl, rfl, rfl⟩

/-- What these rules do to the receive side is nothing, or that of `rxDone`. -/
theorem shared_cases (r : SharedRule F) {out : Option (Raw F)} (h : r.rule e = some (e', out)) :
    SameReceive e e' ∨ e.rxDone = some e' := by
  cases shared_does r h with
  | quiet hsame => exact Or.inl hsame.receive
  | rxDone hdone => exact Or.inr hdone
  | txSend ht =>
    obtain ⟨⟨tx, d⟩, _, heq⟩ := Option.map_eq_some_iff.mp ht
    obtain ⟨rfl, _⟩ := Prod.mk.inj heq
    exact Or.inl (by constructor <;> rfl)

/-- An acknowledgement is taken if its checksum is right. -/
theorem examines_rxAck {x : Flit (Raw F)} (hkind : kind x.raw = .control)
    (htag : tagOf x.raw = F.ack) (h : e.rxAck x = some e') : Examines e x e' := by
  rw [Core.rxAck] at h
  split at h
  · next hok =>
    split at h
    · obtain rfl := Option.some.inj h
      refine .ack hkind htag ?_
      have hpay : ctrlOf x.raw ≠ payload := by
        intro hpay
        simp [kind, hpay] at hkind
      have hpay' : (ctrlOf x.raw == payload) = false := beq_eq_false_iff_ne.mpr hpay
      simp only [Core.notCorrupt, hpay', Bool.false_and, Bool.or_false] at hok
      rw [Core.passes, hok, hkind, htag, Bool.true_and]
      exact beq_self_eq_true _
    · cases h
  · obtain rfl := Option.some.inj h
    exact .ignore hkind

/-! ### The sending endpoint -/

theorem Supplies.of_sameTransmit (h : Supplies e) (hs : Core.SameTransmit e e') : Supplies e' where
  stream := by
    rw [hs.tx, hs.marshaller, hs.serdesTxfifo, hs.given]
    exact h.stream
  fragment := by
    rw [hs.tx, hs.fragmentNumberTX]
    exact h.fragment

theorem Core.txHeader_cases {f : Raw F} (h : e.txHeader = some (e', f)) :
    ∃ tx seq, e.tx.txHeader = some (tx, seq) ∧ f = packControl F.header seq ∧
      e' = { e with
        tx := tx, fragmentNumberTX := 0, parityTX := hashTX 0 (controlData F.header seq) } := by
  obtain ⟨⟨tx, seq⟩, htx, heq⟩ := Option.map_eq_some_iff.mp h
  obtain ⟨rfl, rfl⟩ := Prod.mk.inj heq
  exact ⟨tx, seq, htx, rfl, rfl⟩

theorem Core.txSend_cases {f : Raw F} (h : e.txSend = some (e', f)) :
    ∃ tx d, e.tx.txSend F.frameCounter = some (tx, d) ∧
      f = packFragment e.parityTX (F.fragmentCounter.isLast e.fragmentNumberTX) d ∧
      e' = { e with
        tx := tx
        fragmentNumberTX := if F.fragmentCounter.isLast e.fragmentNumberTX then 0
          else F.fragmentCounter.succ e.fragmentNumberTX
        parityTX := hashTX e.parityTX (fragmentData d) } := by
  obtain ⟨⟨tx, d⟩, htx, heq⟩ := Option.map_eq_some_iff.mp h
  obtain ⟨rfl, rfl⟩ := Prod.mk.inj heq
  exact ⟨tx, d, htx, rfl, rfl⟩

theorem Supplies.txHeader (h : Supplies e) {f : Raw F} (ht : e.txHeader = some (e', f)) :
    Supplies e' := by
  obtain ⟨tx, seq, htx, _, rfl⟩ := Core.txHeader_cases ht
  obtain ⟨_, _, _, rfl⟩ := Sender.txHeader_cases htx
  exact ⟨h.stream, fun _ => (Nat.zero_mod _).symm⟩

/-- At the end of a word its checksum is mixed in. -/
theorem Supplies.mixHash (h : Supplies e) (hp : e.tx.frameInProgress = true) :
    F.fragmentCounter.isLast e.fragmentNumberTX =
      ((e.tx.framePositionTX + 1) % F.interfaceWords == 0) := by
  have hlt : e.fragmentNumberTX < F.interfaceWords := by
    rw [h.fragment hp]
    exact Nat.mod_lt _ F.interfaceWords_pos
  rw [Bool.eq_iff_iff, FrameCounter.isLast_iff (C := F.fragmentCounter) hlt, beq_iff_eq,
    ← Nat.mod_add_mod, ← h.fragment hp]
  show e.fragmentNumberTX + 1 = F.interfaceWords ↔ _
  constructor
  · intro hend
    rw [hend, Nat.mod_self]
  · intro hzero
    by_contra hne
    rw [Nat.mod_eq_of_lt (by omega)] at hzero
    omega

theorem Supplies.txSend (h : Supplies e) {f : Raw F} (ht : e.txSend = some (e', f))
    (hlt : e.tx.framePositionTX < F.frameCounter.size) : Supplies e' := by
  obtain ⟨tx, d, htx, _, rfl⟩ := Core.txSend_cases ht
  obtain ⟨hbusy, _, ⟨hlast, rfl⟩ | ⟨_, _, _, rfl⟩⟩ := Sender.txSend_cases htx
  · refine ⟨by simpa using h.stream, fun _ => ?_⟩
    have hne : ¬ e.tx.framePositionTX + 1 = F.frameCounter.size := by
      rw [← FrameCounter.isLast_iff hlt, hlast]
      simp
    have hpos : 0 < F.interfaceWords := F.interfaceWords_pos
    have hfrag := h.fragment hbusy
    show (if _ then _ else _) = F.frameCounter.succ e.tx.framePositionTX % F.interfaceWords
    rw [FrameCounter.succ_eq (C := F.frameCounter) (by omega), h.mixHash hbusy]
    by_cases hend : (e.tx.framePositionTX + 1) % F.interfaceWords = 0
    · rw [hend]
      rfl
    · have hroom : e.fragmentNumberTX + 1 < F.interfaceWords := by
        have hmod := Nat.mod_lt e.tx.framePositionTX hpos
        rw [← Nat.mod_add_mod, ← hfrag] at hend
        have : e.fragmentNumberTX + 1 ≠ F.interfaceWords := by
          intro heq
          rw [heq, Nat.mod_self] at hend
          exact hend rfl
        omega
      rw [if_neg (by simpa using hend), ← Nat.mod_add_mod, ← hfrag, Nat.mod_eq_of_lt hroom]
      exact FrameCounter.succ_eq (C := F.fragmentCounter) hroom
  · exact ⟨by simpa using h.stream, by rintro ⟨⟩⟩

namespace Driver

variable {σ ρ : Type} (D : Driver F σ ρ)

/-- One direction between two endpoints, from `s` to `p`. -/
structure Linked (s p : Side σ (Raw F)) : Prop where
  /-- The path from the user's data to the receiver, and back. -/
  path : Path (D.core s.ep).tx ((D.core p.ep).serdesInfifo ++ s.link) s.sent
    ((D.core s.ep).serdesInfifo ++ p.link) (D.core p.ep) p.chain
  /-- The user. -/
  supplies : Supplies (D.core s.ep)

variable {D} {s p s' p' : Side σ (Raw F)} {ep : σ} {out : Option (Raw F)}
  {ex : Option (Flit (Raw F))}

theorem fire_chained {f : Raw F} (hf : kind f ≠ .control) :
    s.fire D.machine ep (some f) none =
      { s with ep := ep, link := s.link ++ [s.label f], sent := s.sent + 1 } := by
  refine Side.fire_chained s ep ?_
  rw [D.kind_eq]
  cases hkind : kind f with
  | control => exact absurd hkind hf
  | header => rfl
  | payload => rfl

theorem fire_control {f : Raw F} (hf : kind f = .control) :
    s.fire D.machine ep (some f) none = { s with ep := ep, link := s.link ++ [s.label f] } := by
  refine Side.fire_control s ep ?_
  rw [D.kind_eq, hf]
  rfl

theorem fire_examined (x : Flit (Raw F)) :
    s.fire D.machine ep none (some x) = { s with ep := ep, chain := observe kind s.chain x } := by
  rw [Side.fire_examined, D.kind_eq]

/-- **Every rule of the sending endpoint** keeps the direction linked. -/
theorem Linked.sendRule (h : D.Linked s p) (heff : Effect (D.core s.ep) (D.core ep) out ex)
    (hgen : ∀ x, ex = some x → (D.core s.ep).passes x = true → Genuine kind s.chain x) :
    D.Linked (s.fire D.machine ep out ex) p := by
  obtain ⟨hpath, hsupplies⟩ := h
  generalize hc : D.core s.ep = c at *
  generalize hc' : D.core ep = c' at *
  cases heff with
  | silent hs =>
    rw [Side.fire_none]
    refine ⟨?_, by rw [hc']; exact hs.supplies hsupplies⟩
    show Path (D.core ep).tx _ _ ((D.core ep).serdesInfifo ++ _) _ _
    rw [hc', hs.serdesInfifo]
    rcases hs.tx with htx | hq
    · rw [htx]
      exact hpath
    · exact hpath.quiet hq
  | txHeader ht =>
    obtain ⟨tx, seq, htx, rfl, heq⟩ := Core.txHeader_cases ht
    rw [fire_chained (by rw [kind_header]; rintro ⟨⟩)]
    refine ⟨?_, by rw [hc']; exact hsupplies.txHeader ht⟩
    show Path (D.core ep).tx _ _ ((D.core ep).serdesInfifo ++ _) _ _
    rw [hc', heq, ← List.append_assoc]
    exact hpath.txHeader htx
  | txSend ht =>
    obtain ⟨tx, d, htx, rfl, heq⟩ := Core.txSend_cases ht
    obtain ⟨hbusy, _⟩ := Sender.txSend_cases htx
    rw [fire_chained (by rw [kind_packFragment]; rintro ⟨⟩)]
    refine ⟨?_, by rw [hc']; exact hsupplies.txSend ht (hpath.position_lt hbusy)⟩
    show Path (D.core ep).tx _ _ ((D.core ep).serdesInfifo ++ _) _ _
    rw [hc', heq, ← List.append_assoc]
    exact hpath.txSend htx (hsupplies.mixHash hbusy) _
  | txACK ht =>
    obtain ⟨a, rest, _, rfl, heq⟩ := Core.txACK_cases ht
    have hkind := kind_control F.ack_msb F.ack_ne_header a
    rw [fire_control hkind]
    refine ⟨?_, by rw [hc', heq]; exact ⟨hsupplies.stream, hsupplies.fragment⟩⟩
    show Path (D.core ep).tx _ _ ((D.core ep).serdesInfifo ++ _) _ _
    rw [hc', heq, ← List.append_assoc]
    exact hpath.sendControl hkind
  | other hkind _ =>
    rw [fire_control hkind]
    refine ⟨?_, by rw [hc']; exact hsupplies⟩
    show Path (D.core ep).tx _ _ ((D.core ep).serdesInfifo ++ _) _ _
    rw [hc', ← List.append_assoc]
    exact hpath.sendControl hkind
  | @examine _ x rest hx hexamines =>
    rw [fire_examined]
    rw [hx] at hpath
    -- whatever the flit is, the sender may lose it
    have hlose : Core.SameTransmit { c with serdesInfifo := rest } c' →
        D.Linked { s with ep := ep, chain := observe kind s.chain x } p := by
      intro hsame
      have hs : Supplies { c with serdesInfifo := rest } := ⟨hsupplies.stream, hsupplies.fragment⟩
      refine ⟨?_, by rw [hc']; exact hs.of_sameTransmit hsame⟩
      show Path (D.core ep).tx _ _ ((D.core ep).serdesInfifo ++ _) _ _
      rw [hc', hsame.tx, hsame.serdesInfifo]
      exact hpath.loseBack (List.sublist_cons_self x (rest ++ p.link))
    cases hexamines with
    | hold _ _ _ _ hsame => exact hlose hsame
    | complete _ _ _ _ _ hsame => exact hlose hsame
    | fail _ _ _ _ hsame => exact hlose hsame
    | skip _ _ _ _ hsame => exact hlose hsame
    | header _ _ hsame _ => exact hlose { hsame with }
    | ignore _ => exact hlose (by constructor <;> rfl)
    | ack hkind htag hpass =>
      refine ⟨?_, by rw [hc']; exact ⟨hsupplies.stream, hsupplies.fragment⟩⟩
      show Path (D.core ep).tx _ _ ((D.core ep).serdesInfifo ++ _) _ _
      rw [hc']
      exact hpath.arrive (hgen x rfl hpass).1 hkind htag

theorem observe_control {chain : Option ℕ} {x : Flit (Raw F)} (h : kind x.raw = .control) :
    observe kind chain x = chain := by
  simp [observe, h]

/-- **The receiver examines a flit**, and the path goes on from the next. -/
theorem path_examines {tx : Sender (Data F)} {queue back : List (Flit (Raw F))} {sent : ℕ}
    {chain : Option ℕ} {x : Flit (Raw F)} (h : Path tx (x :: queue) sent back e chain)
    (hex : Examines e x e') (hgen : e.passes x = true → Genuine kind chain x) :
    Path tx queue sent back e' (observe kind chain x) := by
  cases hex with
  | hold herr hkind hend ha _ => exact h.hold herr hkind hend ha
  | complete herr hkind hend hpass ha _ => exact h.complete herr hkind hend (hgen hpass) ha
  | fail herr _ herr' hr _ => exact ((h.idle_of_rollBack herr hr).drop).error herr' _
  | skip herr _ herr' hsame _ => exact (((h.idle_of_error herr).congr hsame).drop).error herr' _
  | @header e₀ err hkind hopen _ hfuture =>
    have hidle : Idle tx (x :: queue) sent back e₀ := by
      rcases hopen with ⟨herr, hr⟩ | ⟨herr, hsame⟩
      · exact h.idle_of_rollBack herr hr
      · exact (h.idle_of_error herr).congr hsame
    have hnumber : e₀.sequenceNumberRX = e.sequenceNumberRX := by
      rcases hopen with ⟨_, hr⟩ | ⟨_, hsame⟩
      · exact hr.sequenceNumberRX
      · exact hsame.sequenceNumberRX
    cases err with
    | true => exact (hidle.drop.congr (by constructor <;> rfl)).error rfl _
    | false =>
      by_cases hraw : x.raw = x.orig
      · exact hidle.header hkind hraw (by rw [hnumber]; exact hfuture rfl)
      · exact hidle.headerUnknown hkind hraw
  | ack hkind _ _ =>
    rw [observe_control hkind]
    exact (h.lose (List.sublist_cons_self x queue)).congr (by constructor <;> rfl)
  | ignore hkind =>
    rw [observe_control hkind]
    exact h.lose (List.sublist_cons_self x queue)

theorem examines_serdesInfifo {x : Flit (Raw F)} (h : Examines e x e') :
    e'.serdesInfifo = e.serdesInfifo := by
  cases h with
  | hold _ _ _ _ hsame => exact hsame.serdesInfifo
  | complete _ _ _ _ _ hsame => exact hsame.serdesInfifo
  | fail _ _ _ _ hsame => exact hsame.serdesInfifo
  | skip _ _ _ _ hsame => exact hsame.serdesInfifo
  | header _ _ hsame _ => exact hsame.serdesInfifo
  | ack _ _ _ => rfl
  | ignore _ => rfl

/-- **Every rule of the receiving endpoint** keeps the direction linked. -/
theorem Linked.recvRule (h : D.Linked s p) (heff : Effect (D.core p.ep) (D.core ep) out ex)
    (hgen : ∀ x, ex = some x → (D.core p.ep).passes x = true → Genuine kind p.chain x) :
    D.Linked s (p.fire D.machine ep out ex) := by
  obtain ⟨hpath, hsupplies⟩ := h
  refine ⟨?_, hsupplies⟩
  generalize hc : D.core p.ep = c at *
  generalize hc' : D.core ep = c' at *
  cases heff with
  | silent hs =>
    rw [Side.fire_none]
    show Path _ ((D.core ep).serdesInfifo ++ _) _ _ (D.core ep) _
    rw [hc', hs.serdesInfifo]
    exact hs.path hpath
  | txHeader ht =>
    obtain ⟨tx, seq, _, rfl, heq⟩ := Core.txHeader_cases ht
    rw [fire_chained (by rw [kind_header]; rintro ⟨⟩)]
    show Path _ ((D.core ep).serdesInfifo ++ _) _ (_ ++ (_ ++ _)) (D.core ep) _
    rw [hc', heq, ← List.append_assoc _ p.link]
    exact (hpath.congr (by constructor <;> rfl)).backOther (Or.inl (by
      show kind (packControl F.header seq) ≠ _
      rw [kind_header]
      rintro ⟨⟩))
  | txSend ht =>
    obtain ⟨tx, d, _, rfl, heq⟩ := Core.txSend_cases ht
    rw [fire_chained (by rw [kind_packFragment]; rintro ⟨⟩)]
    show Path _ ((D.core ep).serdesInfifo ++ _) _ (_ ++ (_ ++ _)) (D.core ep) _
    rw [hc', heq, ← List.append_assoc _ p.link]
    exact (hpath.congr (by constructor <;> rfl)).backOther (Or.inl (by
      show kind (packFragment _ _ d) ≠ _
      rw [kind_packFragment]
      rintro ⟨⟩))
  | txACK ht =>
    obtain ⟨a, rest, ha, rfl, heq⟩ := Core.txACK_cases ht
    rw [fire_control (kind_control F.ack_msb F.ack_ne_header a)]
    show Path _ ((D.core ep).serdesInfifo ++ _) _ (_ ++ (_ ++ _)) (D.core ep) _
    rw [hc', heq, ← List.append_assoc _ p.link]
    exact hpath.sendAck ha rfl
  | other hkind htag =>
    rw [fire_control hkind]
    show Path _ ((D.core ep).serdesInfifo ++ _) _ (_ ++ (_ ++ _)) (D.core ep) _
    rw [hc', ← List.append_assoc _ p.link]
    exact hpath.backOther (Or.inr htag)
  | @examine _ x rest hx hexamines =>
    rw [fire_examined]
    show Path _ ((D.core ep).serdesInfifo ++ _) _ _ (D.core ep) _
    rw [hx] at hpath
    rw [hc', examines_serdesInfifo hexamines]
    exact path_examines (hpath.congr (by constructor <;> rfl)) hexamines (hgen x rfl)

/-! ### Runs -/

theorem Linked.send (h : D.Linked s p) (hmove : Move D.machine s p s' p') : D.Linked s' p' := by
  cases hmove with
  | rule r ep out hr hgen =>
    refine h.sendRule (D.effect r _ _ out hr) fun x hx hpass => ?_
    rw [← D.kind_eq]
    exact hgen x hx (by rw [D.passes_eq]; exact hpass)
  | intake x rest ep hp hin =>
    obtain ⟨hpath, hsupplies⟩ := h
    have hep := D.intake _ _ _ hin
    refine ⟨?_, ?_⟩
    · show Path (D.core ep).tx _ _ ((D.core ep).serdesInfifo ++ rest) _ _
      rw [hep, List.append_assoc]
      rw [hp] at hpath
      exact hpath
    · rw [hep]
      exact ⟨hsupplies.stream, hsupplies.fragment⟩
  | drop pre post x hs =>
    refine ⟨h.path.lose ?_, h.supplies⟩
    rw [hs]
    exact (List.Sublist.refl _).append
      ((List.Sublist.refl pre).append (List.sublist_cons_self x post))
  | corrupt pre post x raw softErr hs =>
    refine ⟨?_, h.supplies⟩
    have hpath := h.path
    rw [hs, ← List.append_assoc] at hpath
    rw [← List.append_assoc]
    exact hpath.alter rfl rfl

theorem Linked.recv (h : D.Linked s p) (hmove : Move D.machine p s p' s') : D.Linked s' p' := by
  cases hmove with
  | rule r ep out hr hgen =>
    refine h.recvRule (D.effect r _ _ out hr) fun x hx hpass => ?_
    rw [← D.kind_eq]
    exact hgen x hx (by rw [D.passes_eq]; exact hpass)
  | intake x rest ep hp hin =>
    obtain ⟨hpath, hsupplies⟩ := h
    have hep := D.intake _ _ _ hin
    refine ⟨?_, hsupplies⟩
    show Path _ ((D.core ep).serdesInfifo ++ rest) _ _ (D.core ep) _
    rw [hep, List.append_assoc]
    rw [hp] at hpath
    exact hpath.congr (by constructor <;> rfl)
  | drop pre post x hs =>
    refine ⟨h.path.loseBack ?_, h.supplies⟩
    rw [hs]
    exact (List.Sublist.refl _).append
      ((List.Sublist.refl pre).append (List.sublist_cons_self x post))
  | corrupt pre post x raw softErr hs =>
    refine ⟨?_, h.supplies⟩
    have hpath := h.path
    rw [hs, ← List.append_assoc] at hpath
    rw [← List.append_assoc]
    exact hpath.alterBack rfl

theorem sends_reset : Sends F.frameCounter (Sender.reset : Sender (Data F)) State.start where
  books := Sender.bookkeeping_reset
  source := rfl
  base := rfl
  outstanding := rfl
  sending := rfl
  pending := rfl
  next := rfl

theorem path_reset : Path Sender.reset [] 0 [] (Core.reset F) none := by
  have hclosed : Closed (Core.reset F) State.start :=
    { sequence := rfl
      aligned := Nat.dvd_zero _
      words := ⟨[], rfl, by simp, Core.output_of_short F.interfaceWords_pos⟩
      position := rfl
      settled := Or.inl rfl }
  exact ⟨State.start, [], .init rfl, ⟨sends_reset, ⟨rfl, rfl, by simp⟩, rfl⟩,
    Or.inl ⟨rfl, rfl, hclosed⟩⟩

theorem linked_reset : D.Linked (Side.reset D.machine) (Side.reset D.machine) := by
  refine ⟨?_, ?_⟩
  · show Path (D.core D.machine.reset).tx ((D.core D.machine.reset).serdesInfifo ++ []) 0
      ((D.core D.machine.reset).serdesInfifo ++ []) (D.core D.machine.reset) none
    rw [D.reset]
    exact path_reset
  · show Supplies (D.core D.machine.reset)
    rw [D.reset]
    exact ⟨rfl, by rintro ⟨⟩⟩

/-- Both directions between two endpoints are linked, in every reachable state. -/
theorem linked_of_reachable {d : Duplex σ (Raw F)}
    (h : (LossyLink.system D.machine).Reachable d) : D.Linked d.a d.b ∧ D.Linked d.b d.a :=
  LossyLink.directed linked_reset (fun _ _ _ _ => Linked.send) (fun _ _ _ _ => Linked.recv) h

/-- **Whole groups.** The words enqueued are, one by one, the groups that the sender's data flits
begin with. -/
theorem Linked.enqueued_groups (h : D.Linked s p) :
    ∃ groups : List (List (Data F)), groups.flatten <+: fragments (D.core s.ep).given ∧
      (∀ l ∈ groups, l.length = F.interfaceWords) ∧
      (D.core p.ep).enqueued <+: groups.map fun l => unpad (Marshal.join F.interfaceWords l) := by
  obtain ⟨groups, hprefix, hlen, hout⟩ := h.path.output_groups
  refine ⟨groups, ?_, hlen, ?_⟩
  · rw [← h.supplies.stream, List.append_assoc]
    exact hprefix.trans (List.prefix_append _ _)
  · rw [← hout]
    exact List.prefix_append _ _

/-- **In-order exactly-once delivery**, in one direction. -/
theorem Linked.enqueued_isPrefix (h : D.Linked s p) :
    (D.core p.ep).enqueued <+: (D.core s.ep).given := by
  obtain ⟨groups, hprefix, hlen, henqueued⟩ := h.enqueued_groups
  have hpad : fragments (D.core s.ep).given =
      ((D.core s.ep).given.map pad).flatMap (Marshal.split F.interfaceWords) := by
    rw [fragments, List.flatMap_map]
  rw [hpad] at hprefix
  have hjoin := Marshal.map_join_isPrefix F.interfaceWords_pos hlen hprefix
  have hunpad := hjoin.map unpad
  rw [List.map_map, List.map_map] at hunpad
  have hid : (unpad ∘ pad : Word F → Word F) = id := by
    funext w
    exact pad_unpad w
  rw [hid, List.map_id] at hunpad
  exact henqueued.trans hunpad

end Driver

end Grouped

end Aurora

end LeapPlatforms
