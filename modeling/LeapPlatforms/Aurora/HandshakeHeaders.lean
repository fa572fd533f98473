import LeapPlatforms.Aurora.HandshakeDelivery
import LeapPlatforms.Foundation.Watch

/-!
# Headers that are to be rejected

A header of `aurora-reliable-handshake` is to be rejected if its checksum is wrong, or if it comes
before the handshake is done; then nothing of its frame is to be delivered or acknowledged. The
receive rule computes `!notCorrupt && handshakeRXDone` where that would be
`!notCorrupt || !handshakeRXDone`, so that before the handshake is done every header is let in that
is not one of a future frame, be its checksum right or wrong (`rejected_header_delivers`). After the
handshake headers are rejected as they should be. Any flits whatever may be received here.

## Main definitions

* `Standing`, `FrameHistory` — what the header of the frame in progress was worth
* `Ignored` — a payload flit of which nothing is kept
* `observed` — the endpoint, with any flits received

## Main results

* `payload_of_rejected` — of frames whose header is to be rejected those payload flits are delivered
  or acknowledged that belong to a header that was let in
-/

namespace LeapPlatforms

namespace Aurora

namespace Handshake

open LossyLink (Flit Kind)
open Grouped (Core Raw)

variable {P : Params}

/-- What the last header was worth. -/
inductive Standing
  /-- Its checksum was right, and the handshake was done. -/
  | valid
  /-- It was to be rejected, and the receiver is in error; or there was no header yet. -/
  | rejected
  /-- It was to be rejected, and the receiver is not in error. -/
  | slipped
  deriving DecidableEq

/-- A payload flit without error after which the receiver is not in error: it is not the last flit
of a new frame. -/
def continues (c : Core P.format) : Bool :=
  !(c.fresh && P.format.frameCounter.isLast c.provisionalFramePositionRX)

namespace Standing

/-- Behind the flit `x`, examined by the endpoint `e`. -/
def note (e : Endpoint P) (x : Flit (Raw P.format)) (st : Standing) : Standing :=
  match Grouped.kind x.raw, st with
  | .header, _ =>
    if e.core.notCorrupt x && e.handshakeRXDone then valid
    else if e.handshakeRXDone ||
      futureFrame e.core.sequenceNumberRX (Grouped.sequenceOf x.raw) then rejected
    else slipped
  | .payload, slipped =>
    if e.core.notCorrupt x && continues e.core then slipped else rejected
  | .payload, valid => valid
  | .payload, rejected => rejected
  | .control, st => st

end Standing

/-- A payload flit that takes `c` to `c'` is neither delivered nor counted nor acknowledged. -/
structure Ignored (c c' : Core P.format) : Prop where
  demarshaller : c'.demarshaller = c.demarshaller
  framePositionRX : c'.framePositionRX = c.framePositionRX
  sequenceNumberRX : c'.sequenceNumberRX = c.sequenceNumberRX
  ackSequenceNumberTX : c'.ackSequenceNumberTX = c.ackSequenceNumberTX

instance (c c' : Core P.format) : Decidable (Ignored c c') :=
  decidable_of_iff (c'.demarshaller = c.demarshaller ∧ c'.framePositionRX = c.framePositionRX ∧
      c'.sequenceNumberRX = c.sequenceNumberRX ∧
      c'.ackSequenceNumberTX = c.ackSequenceNumberTX)
    ⟨fun ⟨h₁, h₂, h₃, h₄⟩ => ⟨h₁, h₂, h₃, h₄⟩, fun ⟨h₁, h₂, h₃, h₄⟩ => ⟨h₁, h₂, h₃, h₄⟩⟩

/-- Whether a payload flit without error has an effect: it is the flit that the receiver waits for,
or the last of its frame. -/
def counts (c : Core P.format) : Bool :=
  c.fresh || P.format.frameCounter.isLast c.provisionalFramePositionRX

variable (P) in
/-- A history of the frames whose header was to be rejected. -/
structure FrameHistory where
  standing : Standing
  /-- The headers that were let in. -/
  slips : List (Raw P.format)
  /-- The payload flits of such frames that were delivered, counted or acknowledged. -/
  strays : List (Raw P.format)
  /-- The payload flits behind a header that was let in which passed their check, and were the ones
  that the receiver waited for or the last of their frame. -/
  passed : List (Raw P.format)

/-- The rule `rxDemarsh` takes `e` to `e'`, and takes the flit `x`. -/
def FrameHistory.note (e : Endpoint P) (x : Flit (Raw P.format)) (e' : Endpoint P)
    (h : FrameHistory P) : FrameHistory P where
  standing := h.standing.note e x
  slips :=
    if Grouped.kind x.raw = .header ∧ h.standing.note e x = .slipped then h.slips ++ [x.raw]
    else h.slips
  strays :=
    if Grouped.kind x.raw = .payload ∧ h.standing ≠ .valid ∧ ¬ Ignored e.core e'.core then
      h.strays ++ [x.raw]
    else h.strays
  passed :=
    if Grouped.kind x.raw = .payload ∧ h.standing = .slipped ∧
        (e.core.notCorrupt x && counts e.core) = true then h.passed ++ [x.raw]
    else h.passed

variable (P) in
/-- The endpoint from its reset on, with any flits received. -/
def observed : TransitionSystem (Endpoint P × FrameHistory P) :=
  (machine P).watched FrameHistory.note ⟨.rejected, [], [], []⟩

/-! ### The invariant -/

/-- The endpoint and the history, in every reachable state. -/
structure Shown (e : Endpoint P) (h : FrameHistory P) : Prop where
  rejected : h.standing = .rejected → e.core.frameErrorRX = true
  slipped : h.standing = .slipped → e.core.frameErrorRX = false
  strays : h.strays = h.passed
  slips : h.slips = [] → h.standing ≠ .slipped ∧ h.passed = []

variable {e e' : Endpoint P} {h : FrameHistory P} {x : Flit (Raw P.format)}
  {rest : List (Flit (Raw P.format))}

theorem Shown.same (hs : Shown e h) (herr : e'.core.frameErrorRX = e.core.frameErrorRX) :
    Shown e' h :=
  ⟨fun hst => herr.trans (hs.rejected hst), fun hst => herr.trans (hs.slipped hst), hs.strays,
    hs.slips⟩

/-- Only `rxDemarsh` changes `frameErrorRX`. -/
theorem frameErrorRX_rule {r : Rule P} {out : Option (Raw P.format)} (hr : r ≠ .rxDemarsh)
    (he : rule r e = some (e', out)) : e'.core.frameErrorRX = e.core.frameErrorRX := by
  cases r with
  | rxDemarsh => exact absurd rfl hr
  | shared r =>
    rcases Grouped.shared_cases r (withCore_cases he).1 with hsame | hdone
    · exact hsame.frameErrorRX
    · rw [(Core.rxDone_cases hdone).2]
  | beat =>
    obtain ⟨rfl, -⟩ := Prod.mk.inj (Option.some.inj he)
    rfl
  | tickCC =>
    obtain ⟨e₁, htick, heq⟩ := Option.map_eq_some_iff.mp he
    obtain ⟨rfl, -⟩ := Prod.mk.inj heq
    rw [(tickCC_cases htick).1]
  | txHeader =>
    obtain ⟨f, -, ht⟩ := Grouped.send_cases (withCore_cases he).1
    rw [Endpoint.txHeader] at ht
    split at ht
    · obtain ⟨⟨tx, seq⟩, -, heq⟩ := Option.map_eq_some_iff.mp ht
      rw [← (Prod.mk.inj heq).1]
    · cases ht
  | txACK =>
    obtain ⟨f, -, ht⟩ := Grouped.send_cases (withCore_cases he).1
    rw [Endpoint.txACK] at ht
    split at ht
    · obtain ⟨a, rest, -, -, heq⟩ := Core.txACK_cases ht
      rw [heq]
    · cases ht
  | txHeartbeat =>
    obtain ⟨⟨e₁, f⟩, hbeat, heq⟩ := Option.map_eq_some_iff.mp he
    obtain ⟨rfl, -⟩ := Prod.mk.inj heq
    rw [(txHeartbeat_cases hbeat).1]

/-- The header of a frame. -/
theorem shown_header (hs : Shown e h) (hkind : Grouped.kind x.raw = .header)
    (herr : e'.core.frameErrorRX =
      (futureFrame e.core.sequenceNumberRX (Grouped.sequenceOf x.raw) ||
        (!e.core.notCorrupt x && e.handshakeRXDone))) : Shown e' (h.note e x e') := by
  have hst : (h.note e x e').standing =
      if e.core.notCorrupt x && e.handshakeRXDone then .valid
      else if e.handshakeRXDone ||
        futureFrame e.core.sequenceNumberRX (Grouped.sequenceOf x.raw) then .rejected
      else .slipped := by
    simp [FrameHistory.note, Standing.note, hkind]
  have hstrays : (h.note e x e').strays = (h.note e x e').passed := by
    simp [FrameHistory.note, hkind, hs.strays]
  refine ⟨fun h' => ?_, fun h' => ?_, hstrays, fun h' => ?_⟩
  · rw [hst] at h'
    rw [herr]
    revert h'
    cases e.core.notCorrupt x <;> cases e.handshakeRXDone <;>
      cases futureFrame e.core.sequenceNumberRX (Grouped.sequenceOf x.raw) <;> simp
  · rw [hst] at h'
    rw [herr]
    revert h'
    cases e.core.notCorrupt x <;> cases e.handshakeRXDone <;>
      cases futureFrame e.core.sequenceNumberRX (Grouped.sequenceOf x.raw) <;> simp
  · have hnot : (h.note e x e').standing ≠ .slipped := by
      intro hslipped
      have hslips : (h.note e x e').slips = h.slips ++ [x.raw] := if_pos ⟨hkind, hslipped⟩
      rw [hslips] at h'
      simp at h'
    have hslips : (h.note e x e').slips = h.slips := if_neg fun hc => hnot hc.2
    rw [hslips] at h'
    refine ⟨hnot, ?_⟩
    simpa [FrameHistory.note, hkind] using (hs.slips h').2

/-- A payload flit that is dropped, or of a valid frame. -/
theorem shown_ignored (hs : Shown e h) (hkind : Grouped.kind x.raw = .payload)
    (hignored : h.standing ≠ .valid → Ignored e.core e'.core)
    (hpassed : h.standing = .slipped → (e.core.notCorrupt x && counts e.core) = false)
    (hrejected : (h.note e x e').standing = .rejected → e'.core.frameErrorRX = true)
    (hslipped : (h.note e x e').standing = .slipped →
      h.standing = .slipped ∧ e'.core.frameErrorRX = false) : Shown e' (h.note e x e') := by
  have hstrays : (h.note e x e').strays = h.strays := if_neg fun ⟨_, hst, hnot⟩ =>
    hnot (hignored hst)
  have hpassed' : (h.note e x e').passed = h.passed := if_neg fun ⟨_, hst, hc⟩ => by
    rw [hpassed hst] at hc
    cases hc
  have hslips : (h.note e x e').slips = h.slips := by simp [FrameHistory.note, hkind]
  refine ⟨hrejected, fun h' => (hslipped h').2, by rw [hstrays, hpassed', hs.strays],
    fun h' => ?_⟩
  rw [hslips] at h'
  rw [hpassed']
  exact ⟨fun hst => (hs.slips h').1 (hslipped hst).1, (hs.slips h').2⟩

/-- A payload flit behind a header that was let in, which passes its check. -/
theorem shown_accepted (hs : Shown e h) (hkind : Grouped.kind x.raw = .payload)
    (hst : h.standing = .slipped) (hok : e.core.notCorrupt x = true)
    (ha : Core.Accepts e.core x e'.core) : Shown e' (h.note e x e') := by
  have herr := hs.slipped hst
  have hnote : (h.note e x e').standing = if continues e.core then .slipped else .rejected := by
    simp [FrameHistory.note, Standing.note, hkind, hst, hok]
  have hslips : (h.note e x e').slips = h.slips := by simp [FrameHistory.note, hkind]
  -- Behind the flit the receiver is in error if it was the last flit of a new frame.
  have herr' : e'.core.frameErrorRX = !continues e.core := by
    rw [continues, Bool.not_not]
    by_cases hf : e.core.fresh = true
    · by_cases hl : P.format.frameCounter.isLast e.core.provisionalFramePositionRX = true
      · rw [(ha.last hf hl).1, hf, hl, Bool.and_self]
      · rw [Bool.not_eq_true] at hl
        rw [(ha.inside hf hl).1, herr, hl, Bool.and_false]
    · rw [Bool.not_eq_true] at hf
      rw [(ha.old hf).2.1, herr, hf, Bool.false_and]
  have heffect : Ignored e.core e'.core ↔ counts e.core = false := by
    constructor
    · intro hi
      rw [counts, Bool.or_eq_false_iff]
      refine ⟨?_, ?_⟩
      · by_contra hf
        have hnew := (ha.new (by simpa using hf)).2
        rw [hi.demarshaller] at hnew
        simp at hnew
      · by_contra hl
        have hack := ha.ackSequenceNumberTX
        rw [if_pos (by simpa using hl), hi.ackSequenceNumberTX] at hack
        simp at hack
    · intro hc
      obtain ⟨hf, hl⟩ := Bool.or_eq_false_iff.mp hc
      obtain ⟨hdem, -, hseq, hpos⟩ := ha.old hf
      refine ⟨hdem, hpos, hseq, ?_⟩
      rw [ha.ackSequenceNumberTX, if_neg (by simp [hl])]
  have hstrays : (h.note e x e').strays = (h.note e x e').passed := by
    by_cases hc : counts e.core = true
    · simp [FrameHistory.note, hkind, hst, hok, hc, heffect, hs.strays]
    · simp [FrameHistory.note, hkind, hst, hok, hc, heffect, hs.strays]
  refine ⟨fun h' => ?_, fun h' => ?_, hstrays, fun h' => ?_⟩
  · rw [hnote] at h'
    rw [herr']
    revert h'
    cases continues e.core <;> simp
  · rw [hnote] at h'
    rw [herr']
    revert h'
    cases continues e.core <;> simp
  · rw [hslips] at h'
    exact absurd hst (hs.slips h').1

/-- A payload flit after which the receiver is in error, and nothing else has changed. -/
theorem shown_dropped (hs : Shown e h) (hkind : Grouped.kind x.raw = .payload)
    (hbad : e.core.notCorrupt x = false ∨ e.core.frameErrorRX = true)
    (hignored : Ignored e.core e'.core) (herr : e'.core.frameErrorRX = true) :
    Shown e' (h.note e x e') := by
  have hpassed : h.standing = .slipped → e.core.notCorrupt x = false := by
    intro hst
    rcases hbad with hok | herr
    · exact hok
    · rw [hs.slipped hst] at herr
      cases herr
  refine shown_ignored hs hkind (fun _ => hignored) (fun hst => ?_) (fun _ => herr) fun hst => ?_
  · rw [hpassed hst, Bool.false_and]
  · rcases hold : h.standing
    · simp [FrameHistory.note, Standing.note, hkind, hold] at hst
    · simp [FrameHistory.note, Standing.note, hkind, hold] at hst
    · simp [FrameHistory.note, Standing.note, hkind, hold, hpassed hold] at hst

/-- **A payload flit.** -/
theorem shown_payload (hs : Shown e h) (hkind : Grouped.kind x.raw = .payload)
    (he : rxPayload x { e.core with serdesInfifo := rest } = some e'.core) :
    Shown e' (h.note e x e') := by
  have hok : ({ e.core with serdesInfifo := rest } : Core P.format).notCorrupt x =
      e.core.notCorrupt x := rfl
  rw [rxPayload, hok] at he
  by_cases herr : e.core.frameErrorRX = true
  · rw [show ({ e.core with serdesInfifo := rest } : Core P.format).frameErrorRX = true from herr,
      Bool.not_true, Bool.and_false, if_neg (by simp)] at he
    refine shown_dropped hs hkind (.inr herr) ?_ ?_
    · split at he <;> rw [← Option.some.inj he] <;> exact ⟨rfl, rfl, rfl, rfl⟩
    · split at he <;> rw [← Option.some.inj he]
      exact herr
  rw [Bool.not_eq_true] at herr
  rw [show ({ e.core with serdesInfifo := rest } : Core P.format).frameErrorRX = false from herr]
    at he
  by_cases hc : e.core.notCorrupt x = true
  · rw [hc, Bool.not_false, Bool.and_true, if_pos rfl] at he
    have ha : Core.Accepts e.core x e'.core := { (Core.acceptFragment_spec he).2 with }
    rcases hst : h.standing
    · refine shown_ignored hs hkind (fun hne => absurd hst hne) (fun h' => ?_) (fun h' => ?_)
        fun h' => ?_
      · rw [hst] at h'
        cases h'
      · simp [FrameHistory.note, Standing.note, hkind, hst] at h'
      · simp [FrameHistory.note, Standing.note, hkind, hst] at h'
    · rw [hs.rejected hst] at herr
      cases herr
    · exact shown_accepted hs hkind hst hc ha
  · rw [Bool.not_eq_true] at hc
    rw [hc, Bool.false_and, if_neg (by simp), Bool.not_false, if_pos rfl] at he
    refine shown_dropped hs hkind (.inl hc) ?_ ?_ <;> rw [← Option.some.inj he]
    exact ⟨rfl, rfl, rfl, rfl⟩

theorem shown_of_reachable {s : Endpoint P × FrameHistory P} (h : (observed P).Reachable s) :
    Shown s.1 s.2 := by
  refine LossyLink.watched_invariant (I := Shown) ?_ ?_ ?_ ?_ h
  · exact ⟨fun _ => rfl, by rintro ⟨⟩, rfl, fun _ => ⟨by rintro ⟨⟩, rfl⟩⟩
  · intro e h x e' hs he
    obtain ⟨c, hc, rfl⟩ := Option.map_eq_some_iff.mp he
    obtain rfl := Core.rxIntake_cases hc
    exact hs.same rfl
  · intro e h r e' out hs hexamines he
    by_cases hr : r = .rxDemarsh
    swap
    · exact hs.same (frameErrorRX_rule hr he)
    subst hr
    obtain ⟨e₁, he₁, -⟩ := Option.map_eq_some_iff.mp he
    obtain ⟨x, rest, hx, -⟩ := rxDemarsh_cases he₁
    change e.core.serdesInfifo.head? = none at hexamines
    rw [hx] at hexamines
    cases hexamines
  · intro e h r x e' out hs hexamines he
    obtain rfl : r = .rxDemarsh := by cases r <;> first | rfl | cases hexamines
    obtain ⟨e₁, he₁, heq⟩ := Option.map_eq_some_iff.mp he
    obtain ⟨rfl, -⟩ := Prod.mk.inj heq
    obtain ⟨x', rest, hx, hcases⟩ := rxDemarsh_cases he₁
    change e.core.serdesInfifo.head? = some x at hexamines
    rw [hx] at hexamines
    obtain rfl := Option.some.inj hexamines
    rcases hcases with ⟨hkind, hpay, -⟩ | ⟨hkind, hhead, -⟩ | ⟨hkind, -, -, hctrl⟩
    · exact shown_payload hs hkind hpay
    · refine shown_header hs hkind ?_
      rw [hhead]
      rfl
    · have hnote : h.note e x' e₁ = h := by
        simp [FrameHistory.note, Standing.note, hkind]
      rw [hnote]
      refine hs.same ?_
      rcases hctrl with ⟨-, hack⟩ | hother
      · rw [Core.rxAck] at hack
        split at hack
        · split at hack
          · rw [← Option.some.inj hack]
          · cases hack
        · rw [← Option.some.inj hack]
      · rw [hother]

/-- **Rejected headers.** In every reachable state, whatever flits were received, of the frames
whose header was to be rejected those payload flits were delivered, counted or acknowledged that
passed their check behind a header that was let in, and were waited for or the last of their frame.
There are none if no header of another than a future frame came before the handshake was done. -/
theorem payload_of_rejected {s : Endpoint P × FrameHistory P} (h : (observed P).Reachable s) :
    s.2.strays = s.2.passed ∧ (s.2.slips = [] → s.2.strays = []) := by
  have hs := shown_of_reachable h
  exact ⟨hs.strays, fun hslips => hs.strays.trans (hs.slips hslips).2⟩

/-! ### A header before the handshake -/

/-- From reset a header is received with a checksum that is wrong, and the first payload flit of a
group. The header has been examined, and both are before any heartbeat. -/
def corruptHeader : List (Raw sampleParams.format ⊕ Rule sampleParams) :=
  [.inl (Grouped.packControl sampleParams.format.header 0 ^^^ 1), .inr .rxDemarsh,
    .inl (Grouped.packFragment 0 false 5)]

theorem corruptHeader_reachable : ∃ s x e', (observed sampleParams).Reachable s ∧
    s.2.standing = .slipped ∧ s.2.slips.length = 1 ∧ s.1.handshakeRXDone = false ∧
    s.1.core.serdesInfifo = [x] ∧ Grouped.kind x.raw = .payload ∧ rxDemarsh s.1 = some e' ∧
    s.1.core.demarshaller.length = 0 ∧ e'.core.demarshaller.length = 1 := by
  have hrun : ((corruptHeader.foldlM ((machine sampleParams).turn FrameHistory.note)
      (Endpoint.reset sampleParams, ⟨.rejected, [], [], []⟩)).bind fun s =>
        (rxDemarsh s.1).map fun e' => (s.2.standing, s.2.slips.length, s.1.handshakeRXDone,
          s.1.core.serdesInfifo.map fun x => Grouped.kind x.raw, s.1.core.demarshaller.length,
          e'.core.demarshaller.length)) =
      some (.slipped, 1, false, [.payload], 0, 1) := by
    decide +kernel
  obtain ⟨s, hs, hlast⟩ := Option.bind_eq_some_iff.mp hrun
  obtain ⟨e', he', heq⟩ := Option.map_eq_some_iff.mp hlast
  simp only [Prod.mk.injEq] at heq
  obtain ⟨hst, hslips, hdone, hqueue, hbefore, hbehind⟩ := heq
  obtain ⟨x, hx, hkind⟩ := List.map_eq_singleton_iff.mp hqueue
  exact ⟨s, x, e', LossyLink.watched_run hs, hst, hslips, hdone, hx, hkind, he', hbefore, hbehind⟩

/-- The theorem where a header was let in. -/
theorem payload_of_rejected_slipped :
    ∃ s : Endpoint sampleParams × FrameHistory sampleParams, (observed sampleParams).Reachable s ∧
      s.2.standing = .slipped ∧ s.2.strays = s.2.passed := by
  obtain ⟨s, x, e', h, hst, -⟩ := corruptHeader_reachable
  exact ⟨s, h, hst, (payload_of_rejected h).1⟩

/-- **Behind a corrupt header.** Before the handshake is done, a header whose checksum is wrong is
let in, and the payload flit behind it is delivered. -/
theorem rejected_header_delivers :
    ¬ ∀ (P : Params) (s : Endpoint P × FrameHistory P) (x : Flit (Raw P.format))
      (rest : List (Flit (Raw P.format))) (e' : Endpoint P), (observed P).Reachable s →
      s.2.standing ≠ .valid → s.1.core.serdesInfifo = x :: rest →
      Grouped.kind x.raw = .payload → rxDemarsh s.1 = some e' →
      e'.core.demarshaller = s.1.core.demarshaller := by
  intro hall
  obtain ⟨s, x, e', h, hst, -, -, hx, hkind, he', hbefore, hbehind⟩ := corruptHeader_reachable
  have heq := hall sampleParams s x [] e' h (by simp [hst]) hx hkind he'
  rw [heq, hbefore] at hbehind
  cases hbehind

end Handshake

end Aurora

end LeapPlatforms
