import LeapPlatforms.Aurora.ReliableDelivery
import LeapPlatforms.Foundation.Watch

/-!
# Between two frames

What the receiver of `aurora-reliable.bsv` does with payload flits that arrive behind the end of a
frame and before the next header, for any flits whatever that the link may bring.

At the end of a new frame the rule `rxDemarsh` sets `frameErrorRX`, so that nothing is accepted
before the next header. At the end of a frame that it has received before it does not: the next
payload flit is accepted if it passes its check, and after a whole frame of such flits the old
frame is acknowledged once more (`acknowledged_without_header`). A flit that passes its check
there, behind a lost header, is one whose checksum is right by chance.

## Main definitions

* `Gap`, `FrameEnds` — a history of the ends of frames
* `Ignored` — a payload flit that changes nothing
* `observed` — the endpoint, with any flits received

## Main results

* `payload_between_frames` — the payload flits that are not ignored between two frames are exactly
  those that pass their check behind the end of a repeated frame
-/

namespace LeapPlatforms

namespace Aurora

namespace Reliable

open LossyLink (Flit Kind)

variable {P : Params}

/-- Where the receiver is. -/
inductive Gap
  /-- No frame has ended since the last valid header. -/
  | inside
  /-- There was no valid header since the end of the last frame, or since reset. -/
  | shut
  /-- The same, and the frame was one received before, and behind it there was nothing but
  payload flits that passed their check, and acknowledgements. -/
  | ajar
  deriving DecidableEq

namespace Gap

/-- A flit that is not accepted. -/
def reject : Gap → Gap
  | inside => inside
  | shut => shut
  | ajar => shut

/-- Behind the flit `x`, examined by the endpoint `e`. -/
def note (e : Endpoint P) (x : Flit (Raw P)) (gap : Gap) : Gap :=
  let ok := notCorrupt e.parityRX x.softErr x.raw
  match kind x.raw with
  | .payload =>
    if ok then
      if !e.frameErrorRX && frameCounter.isLast e.provisionalFramePositionRX then
        if e.fresh then shut else ajar
      else gap
    else gap.reject
  | .header =>
    if ok && !futureFrame e.sequenceNumberRX (sequenceOf x.raw) then inside else gap.reject
  | .control => gap

end Gap

/-- A payload flit that takes `e` to `e'` is neither counted nor delivered nor acknowledged, and
no more of its frame will be. -/
structure Ignored (e e' : Endpoint P) : Prop where
  frameErrorRX : e'.frameErrorRX = true
  framePositionRX : e'.framePositionRX = e.framePositionRX
  sequenceNumberRX : e'.sequenceNumberRX = e.sequenceNumberRX
  handed : e'.handed = e.handed
  ackSequenceNumberTX : e'.ackSequenceNumberTX = e.ackSequenceNumberTX

instance (e e' : Endpoint P) : Decidable (Ignored e e') :=
  decidable_of_iff (e'.frameErrorRX = true ∧ e'.framePositionRX = e.framePositionRX ∧
      e'.sequenceNumberRX = e.sequenceNumberRX ∧ e'.handed = e.handed ∧
      e'.ackSequenceNumberTX = e.ackSequenceNumberTX)
    ⟨fun ⟨h₁, h₂, h₃, h₄, h₅⟩ => ⟨h₁, h₂, h₃, h₄, h₅⟩,
      fun ⟨h₁, h₂, h₃, h₄, h₅⟩ => ⟨h₁, h₂, h₃, h₄, h₅⟩⟩

variable (P) in
/-- A history of the flits between frames. -/
structure FrameEnds where
  gap : Gap
  /-- The payload flits received between two frames that were not ignored. -/
  strays : List (Raw P)
  /-- The payload flits that passed their check behind the end of a frame received before. -/
  passed : List (Raw P)

/-- The rule `rxDemarsh` takes `e` to `e'`, and takes the flit `x`. -/
def FrameEnds.note (e : Endpoint P) (x : Flit (Raw P)) (e' : Endpoint P) (h : FrameEnds P) :
    FrameEnds P where
  gap := h.gap.note e x
  strays :=
    if kind x.raw = .payload ∧ h.gap ≠ .inside ∧ ¬ Ignored e e' then h.strays ++ [x.raw]
    else h.strays
  passed :=
    if kind x.raw = .payload ∧ h.gap = .ajar ∧ notCorrupt e.parityRX x.softErr x.raw = true then
      h.passed ++ [x.raw]
    else h.passed

variable (P) in
/-- The endpoint from its reset on, with any flits received. -/
def observed : TransitionSystem (Endpoint P × FrameEnds P) :=
  (machine P).watched FrameEnds.note ⟨.shut, [], []⟩

/-! ### Frames are received in their order -/

/-- What the receiver knows of the frame it is receiving. -/
structure InOrder (e : Endpoint P) : Prop where
  position : e.framePositionRX < 128
  provisional : e.provisionalFramePositionRX < 128
  /-- Of the frame that is not complete no flit is accepted that is beyond the next. -/
  order : e.frameErrorRX = false → e.provisionalSequenceNumberRX = e.sequenceNumberRX →
    e.provisionalFramePositionRX ≤ e.framePositionRX

/-- The registers of the receiver are the same. -/
structure SameFrame (e e' : Endpoint P) : Prop where
  frameErrorRX : e'.frameErrorRX = e.frameErrorRX
  framePositionRX : e'.framePositionRX = e.framePositionRX
  provisionalFramePositionRX : e'.provisionalFramePositionRX = e.provisionalFramePositionRX
  provisionalSequenceNumberRX : e'.provisionalSequenceNumberRX = e.provisionalSequenceNumberRX
  sequenceNumberRX : e'.sequenceNumberRX = e.sequenceNumberRX

theorem InOrder.same {e e' : Endpoint P} (h : InOrder e) (hs : SameFrame e e') : InOrder e' := by
  refine ⟨by rw [hs.framePositionRX]; exact h.position,
    by rw [hs.provisionalFramePositionRX]; exact h.provisional, fun herr hseq => ?_⟩
  rw [hs.frameErrorRX] at herr
  rw [hs.provisionalSequenceNumberRX, hs.sequenceNumberRX] at hseq
  rw [hs.provisionalFramePositionRX, hs.framePositionRX]
  exact h.order herr hseq

theorem sameFrame_tx (e : Endpoint P) (tx : Sender (Data P)) : SameFrame e { e with tx := tx } :=
  ⟨rfl, rfl, rfl, rfl, rfl⟩

/-- Only `rxDemarsh` changes the registers of the receiver. -/
theorem sameFrame_rule {e e' : Endpoint P} {r : Rule P} {f : Option (Raw P)}
    (hr : r ≠ .rxDemarsh) (h : rule r e = some (e', f)) : SameFrame e e' := by
  cases r with
  | rxDemarsh => exact absurd rfl hr
  | timerCount =>
    cases h
    exact sameFrame_tx e _
  | sequenceStuffer =>
    simp only [rule, Endpoint.sequenceStuffer, Option.map_map, Option.map_eq_some_iff] at h
    obtain ⟨tx, -, heq⟩ := h
    cases heq
    exact sameFrame_tx e tx
  | passRewind =>
    rw [rule, Endpoint.passRewind] at h
    rcases hm : e.marshaller with _ | ⟨d, rest⟩
    · rw [hm] at h
      cases h
    · simp only [hm, Option.map_map, Option.map_eq_some_iff] at h
      obtain ⟨tx, -, heq⟩ := h
      cases heq
      exact ⟨rfl, rfl, rfl, rfl, rfl⟩
  | tickCC =>
    simp only [rule, Endpoint.tickCC, Option.map_eq_some_iff] at h
    obtain ⟨e₁, he₁, heq⟩ := h
    cases heq
    split at he₁ <;> cases he₁
    exact ⟨rfl, rfl, rfl, rfl, rfl⟩
  | write w =>
    simp only [rule, Endpoint.write, Option.map_eq_some_iff] at h
    obtain ⟨e₁, he₁, heq⟩ := h
    cases heq
    split at he₁ <;> cases he₁
    exact ⟨rfl, rfl, rfl, rfl, rfl⟩
  | crossDomain =>
    simp only [rule, Endpoint.crossDomain, Option.map_eq_some_iff] at h
    obtain ⟨e₁, he₁, heq⟩ := h
    cases heq
    split at he₁ <;> cases he₁
    exact ⟨rfl, rfl, rfl, rfl, rfl⟩
  | txHeader =>
    simp only [rule, Endpoint.txHeader, Option.map_eq_some_iff] at h
    obtain ⟨⟨e₁, f₁⟩, he₁, heq⟩ := h
    cases heq
    split at he₁
    · obtain ⟨tx, -, heq⟩ := Option.map_eq_some_iff.mp he₁
      cases heq
      exact ⟨rfl, rfl, rfl, rfl, rfl⟩
    · cases he₁
  | txFC =>
    simp only [rule, Option.map_eq_some_iff] at h
    obtain ⟨⟨e₁, f₁⟩, he₁, heq⟩ := h
    cases heq
    obtain ⟨a, rest, -, -, rfl⟩ := Endpoint.txFC_cases he₁
    exact ⟨rfl, rfl, rfl, rfl, rfl⟩
  | txSend =>
    simp only [rule, Endpoint.txSend, Option.map_map, Option.map_eq_some_iff] at h
    obtain ⟨tx, -, heq⟩ := h
    cases heq
    exact ⟨rfl, rfl, rfl, rfl, rfl⟩
  | timeoutTest =>
    simp only [rule, Endpoint.timeoutTest, Option.map_eq_some_iff] at h
    obtain ⟨e₁, he₁, heq⟩ := h
    cases heq
    split at he₁
    · cases he₁
    · split at he₁ <;> cases he₁
      exact ⟨rfl, rfl, rfl, rfl, rfl⟩
  | timeout =>
    simp only [rule, Endpoint.timeout, Option.map_eq_some_iff] at h
    obtain ⟨e₁, he₁, heq⟩ := h
    cases heq
    split at he₁ <;> cases he₁
    exact ⟨rfl, rfl, rfl, rfl, rfl⟩
  | handleAck =>
    simp only [rule, Endpoint.handleAck, Option.map_map, Option.map_eq_some_iff] at h
    obtain ⟨tx, -, heq⟩ := h
    cases heq
    exact sameFrame_tx e tx
  | dropAck =>
    simp only [rule, Endpoint.dropAck, Option.map_map, Option.map_eq_some_iff] at h
    obtain ⟨tx, -, heq⟩ := h
    cases heq
    exact sameFrame_tx e tx
  | rxDone =>
    simp only [rule, Endpoint.rxDone, Option.map_eq_some_iff] at h
    obtain ⟨e₁, he₁, heq⟩ := h
    cases heq
    split at he₁ <;> cases he₁
    exact ⟨rfl, rfl, rfl, rfl, rfl⟩
  | deq =>
    simp only [rule, Endpoint.deq, Option.map_eq_some_iff] at h
    obtain ⟨e₁, he₁, heq⟩ := h
    cases heq
    split at he₁ <;> cases he₁
    exact ⟨rfl, rfl, rfl, rfl, rfl⟩

/-! ### The invariant -/

/-- The endpoint and the history, in every reachable state. -/
structure Shown (e : Endpoint P) (h : FrameEnds P) : Prop where
  inOrder : InOrder e
  shut : h.gap = .shut → e.frameErrorRX = true
  ajar : h.gap = .ajar →
    e.frameErrorRX = false ∧ e.provisionalSequenceNumberRX ≠ e.sequenceNumberRX
  strays : h.strays = h.passed

theorem Shown.same {e e' : Endpoint P} {h : FrameEnds P} (hs : Shown e h) (hsame : SameFrame e e') :
    Shown e' h := by
  refine ⟨hs.inOrder.same hsame, fun hg => ?_, fun hg => ?_, hs.strays⟩
  · rw [hsame.frameErrorRX]
    exact hs.shut hg
  · rw [hsame.frameErrorRX, hsame.provisionalSequenceNumberRX, hsame.sequenceNumberRX]
    exact hs.ajar hg

theorem Gap.reject_ne_ajar (gap : Gap) : gap.reject ≠ .ajar := by
  cases gap <;> decide

/-- What the history says of a payload flit that is dropped. -/
theorem note_dropped {e e' : Endpoint P} {h : FrameEnds P} {x : Flit (Raw P)}
    (hkind : kind x.raw = .payload) (hignored : Ignored e e')
    (hbad : notCorrupt e.parityRX x.softErr x.raw = false ∨ e.frameErrorRX = true)
    (hs : Shown e h) :
    (h.note e x e').gap ≠ .ajar ∧ (h.note e x e').strays = (h.note e x e').passed := by
  rcases hbad with hbad | herr
  · refine ⟨?_, ?_⟩
    · simpa [FrameEnds.note, Gap.note, hkind, hbad] using h.gap.reject_ne_ajar
    · simp [FrameEnds.note, hignored, hbad, hs.strays]
  · have hgap : h.gap ≠ .ajar := fun hg => by
      rw [(hs.ajar hg).1] at herr
      cases herr
    refine ⟨?_, ?_⟩
    · by_cases hok : notCorrupt e.parityRX x.softErr x.raw = true
      · simpa [FrameEnds.note, Gap.note, hkind, hok, herr] using hgap
      · simpa [FrameEnds.note, Gap.note, hkind, hok] using h.gap.reject_ne_ajar
    · simp [FrameEnds.note, hignored, hgap, hs.strays]

theorem fresh_eq_true {e : Endpoint P} : e.fresh = true ↔
    e.provisionalFramePositionRX = e.framePositionRX ∧
      e.provisionalSequenceNumberRX = e.sequenceNumberRX := by
  simp [Endpoint.fresh]

/-- A flit that is accepted and not new is of another frame if it is the last of its frame. -/
theorem InOrder.repeated {e : Endpoint P} (h : InOrder e) (herr : e.frameErrorRX = false)
    (hold : e.fresh = false) (hlast : frameCounter.isLast e.provisionalFramePositionRX = true) :
    e.provisionalSequenceNumberRX ≠ e.sequenceNumberRX := by
  intro hseq
  have hle := h.order herr hseq
  have hend : e.provisionalFramePositionRX + 1 = 128 :=
    (FrameCounter.isLast_iff h.provisional).mp hlast
  have hpos := h.position
  have hfresh := fresh_eq_true.mpr ⟨by omega, hseq⟩
  rw [hold] at hfresh
  cases hfresh

section Accepted

variable {e e' : Endpoint P} {h : FrameEnds P} {x : Flit (Raw P)} {rest : List (Flit (Raw P))}

theorem Shown.not_shut (hs : Shown e h) (herr : e.frameErrorRX = false) : h.gap ≠ .shut := by
  intro hg
  rw [hs.shut hg] at herr
  cases herr

theorem succ_lt (p : ℕ) : frameCounter.succ p < 128 := Nat.mod_lt _ (by decide)

/-- The flit that the receiver waits for is accepted. -/
theorem shown_new (hs : Shown e h) (hkind : kind x.raw = .payload)
    (hok : notCorrupt e.parityRX x.softErr x.raw = true) (herr : e.frameErrorRX = false)
    (hfresh : e.fresh = true) (horder : InOrder e')
    (herr' : e'.frameErrorRX = frameCounter.isLast e.framePositionRX) :
    Shown e' (h.note e x e') := by
  obtain ⟨hpos, hseq⟩ := fresh_eq_true.mp hfresh
  have hinside : h.gap = .inside := by
    rcases hg : h.gap with _ | _ | _
    · rfl
    · exact absurd hg (hs.not_shut herr)
    · exact absurd hseq (hs.ajar hg).2
  have hgap : (h.note e x e').gap =
      if frameCounter.isLast e.framePositionRX then .shut else .inside := by
    simp [FrameEnds.note, Gap.note, hkind, hok, herr, hpos, hfresh, hinside]
  refine ⟨horder, fun hg => ?_, fun hg => ?_, ?_⟩
  · rw [hgap] at hg
    split at hg
    · next hlast => rw [herr', hlast]
    · cases hg
  · rw [hgap] at hg
    split at hg <;> cases hg
  · simp [FrameEnds.note, hinside, hs.strays]

/-- A flit that was received before is accepted, and may be the last of its frame. -/
theorem shown_repeated (hs : Shown e h) (hkind : kind x.raw = .payload)
    (hok : notCorrupt e.parityRX x.softErr x.raw = true) (herr : e.frameErrorRX = false)
    (hfresh : e.fresh = false) (horder : InOrder e') (herr' : e'.frameErrorRX = false)
    (hsame : e'.provisionalSequenceNumberRX = e.provisionalSequenceNumberRX ∧
      e'.sequenceNumberRX = e.sequenceNumberRX) : Shown e' (h.note e x e') := by
  have hnot : ¬ Ignored e e' := by
    intro hi
    rw [hi.frameErrorRX] at herr'
    cases herr'
  have hgap : (h.note e x e').gap =
      if frameCounter.isLast e.provisionalFramePositionRX then .ajar else h.gap := by
    simp [FrameEnds.note, Gap.note, hkind, hok, herr, hfresh]
  refine ⟨horder, fun hg => ?_, fun hg => ⟨herr', ?_⟩, ?_⟩
  · rw [hgap] at hg
    split at hg
    · cases hg
    · exact absurd hg (hs.not_shut herr)
  · rw [hsame.1, hsame.2]
    rw [hgap] at hg
    split at hg
    · next hlast => exact hs.inOrder.repeated herr hfresh hlast
    · exact (hs.ajar hg).2
  · rcases hg : h.gap with _ | _ | _
    · simp [FrameEnds.note, hg, hs.strays]
    · exact absurd hg (hs.not_shut herr)
    · simp [FrameEnds.note, hg, hkind, hok, hnot, hs.strays]

/-- A flit that was received before does not bring the receiver past the next one. -/
theorem InOrder.repeat (h : InOrder e) (herr : e.frameErrorRX = false) (hfresh : e.fresh = false)
    (hseq : e.provisionalSequenceNumberRX = e.sequenceNumberRX) :
    frameCounter.succ e.provisionalFramePositionRX ≤ e.framePositionRX := by
  have hle := h.order herr hseq
  have hpos := h.position
  have hne : e.provisionalFramePositionRX ≠ e.framePositionRX := by
    intro heq
    rw [fresh_eq_true.mpr ⟨heq, hseq⟩] at hfresh
    cases hfresh
  rw [FrameCounter.succ_eq (show e.provisionalFramePositionRX + 1 < 128 by omega)]
  omega

/-- **A payload flit.** -/
theorem shown_payload (hs : Shown e h) (hkind : kind x.raw = .payload)
    (he : { e with serdesInfifo := rest }.rxPayload (notCorrupt e.parityRX x.softErr x.raw)
      (hashRX e.parityRX x.raw) (dataOf x.raw) = some e') : Shown e' (h.note e x e') := by
  have horder := hs.inOrder
  rcases Endpoint.rxPayload_cases he with ⟨hbad, he'⟩ | ⟨hok, herr, he'⟩
  · have hignored : Ignored e e' := by
      rw [he']
      exact ⟨rfl, rfl, rfl, rfl, rfl⟩
    obtain ⟨hgap, hstrays⟩ := note_dropped hkind hignored hbad hs
    subst he'
    exact ⟨⟨horder.position, succ_lt _, by rintro ⟨⟩⟩, fun _ => rfl, fun hg => absurd hg hgap,
      hstrays⟩
  change e.frameErrorRX = false at herr
  have hfresh' : ({ e with serdesInfifo := rest } : Endpoint P).fresh = e.fresh := rfl
  rw [hfresh'] at he'
  by_cases hfresh : e.fresh = true
  · simp only [hfresh, if_true, Bool.true_and] at he'
    refine shown_new hs hkind hok herr hfresh ?_ (by rw [he'])
    subst he'
    exact ⟨succ_lt _, succ_lt _, fun _ _ => by rw [(fresh_eq_true.mp hfresh).1]⟩
  · rw [Bool.not_eq_true] at hfresh
    simp only [hfresh, Bool.false_eq_true, if_false, Bool.false_and] at he'
    refine shown_repeated hs hkind hok herr hfresh ?_ (by rw [he']) ⟨by rw [he'], by rw [he']⟩
    subst he'
    exact ⟨horder.position, succ_lt _, fun _ hseq => horder.repeat herr hfresh hseq⟩

/-- **A header.** -/
theorem shown_header (hs : Shown e h) (hkind : kind x.raw = .header) :
    let e' := { e with serdesInfifo := rest }.rxHeader (notCorrupt e.parityRX x.softErr x.raw)
      (hashRX e.parityRX x.raw) (sequenceOf x.raw)
    Shown e' (h.note e x e') := by
  intro e'
  have hstrays : (h.note e x e').strays = (h.note e x e').passed := by
    simp [FrameEnds.note, hkind, hs.strays]
  have hgap : (h.note e x e').gap =
      if notCorrupt e.parityRX x.softErr x.raw &&
        !futureFrame e.sequenceNumberRX (sequenceOf x.raw) then .inside else h.gap.reject := by
    simp [FrameEnds.note, Gap.note, hkind]
  have herr : e'.frameErrorRX = (futureFrame e.sequenceNumberRX (sequenceOf x.raw) ||
      !notCorrupt e.parityRX x.softErr x.raw) := rfl
  refine ⟨⟨hs.inOrder.position, Nat.zero_lt_succ _, fun _ _ => Nat.zero_le _⟩,
    fun hg => ?_, fun hg => ?_,
    hstrays⟩
  · rw [hgap] at hg
    split at hg
    · cases hg
    · next hvalid =>
      rw [herr]
      revert hvalid
      cases futureFrame e.sequenceNumberRX (sequenceOf x.raw) <;>
        cases notCorrupt e.parityRX x.softErr x.raw <;> simp
  · rw [hgap] at hg
    split at hg
    · cases hg
    · exact absurd hg h.gap.reject_ne_ajar

end Accepted

theorem shown_of_reachable {s : Endpoint P × FrameEnds P} (h : (observed P).Reachable s) :
    Shown s.1 s.2 := by
  refine LossyLink.watched_invariant (I := Shown) ?_ ?_ ?_ ?_ h
  · exact ⟨⟨Nat.zero_lt_succ _, Nat.zero_lt_succ _, by rintro ⟨⟩⟩, fun _ => rfl, by rintro ⟨⟩, rfl⟩
  · intro e h x e' hs he
    obtain rfl := Endpoint.rxIntake_cases he
    exact hs.same ⟨rfl, rfl, rfl, rfl, rfl⟩
  · intro e h r e' out hs hexamines he
    by_cases hr : r = .rxDemarsh
    swap
    · exact hs.same (sameFrame_rule hr he)
    subst hr
    obtain ⟨e₁, he₁, -⟩ := Option.map_eq_some_iff.mp he
    obtain ⟨x, rest, hx, -⟩ := Endpoint.rxDemarsh_cases he₁
    change e.serdesInfifo.head? = none at hexamines
    rw [hx] at hexamines
    cases hexamines
  · intro e h r x e' out hs hexamines he
    obtain rfl : r = .rxDemarsh := by cases r <;> first | rfl | cases hexamines
    obtain ⟨e₁, he₁, heq⟩ := Option.map_eq_some_iff.mp he
    obtain ⟨rfl, -⟩ := Prod.mk.inj heq
    obtain ⟨x', rest, hx, hcases⟩ := Endpoint.rxDemarsh_cases he₁
    change e.serdesInfifo.head? = some x at hexamines
    rw [hx] at hexamines
    obtain rfl := Option.some.inj hexamines
    rcases hcases with ⟨hkind, hpay⟩ | ⟨hkind, rfl⟩ | ⟨hkind, hctrl⟩
    · exact shown_payload hs hkind hpay
    · exact shown_header hs hkind
    · have hnote : h.note e x' e₁ = h := by simp [FrameEnds.note, Gap.note, hkind]
      rw [hnote]
      rcases hctrl with rfl | ⟨-, -, rfl⟩
      · exact hs.same ⟨rfl, rfl, rfl, rfl, rfl⟩
      · exact hs.same ⟨rfl, rfl, rfl, rfl, rfl⟩

/-- **Between two frames.** In every reachable state, whatever flits were received, the payload
flits that were not ignored between two frames are exactly those that passed their check behind
the end of a frame received before; and between two frames the receiver is in error except there. -/
theorem payload_between_frames {s : Endpoint P × FrameEnds P} (h : (observed P).Reachable s) :
    s.2.strays = s.2.passed ∧
      (s.2.gap ≠ .inside → (s.1.frameErrorRX = true ↔ s.2.gap ≠ .ajar)) := by
  have hs := shown_of_reachable h
  refine ⟨hs.strays, fun hinside => ⟨fun herr hajar => ?_, fun hajar => ?_⟩⟩
  · rw [(hs.ajar hajar).1] at herr
    cases herr
  · rcases hg : s.2.gap with _ | _ | _
    · exact absurd hg hinside
    · exact hs.shut hg
    · exact absurd hg hajar

/-! ### A frame received twice -/

/-- Payload flits of zeros, each with the checksum that follows on `parity`. -/
def zeros (parity : BitVec 8) : ℕ → List (Raw sampleParams)
  | 0 => []
  | n + 1 => pack parity (payloadTop 0) ::
      zeros (checksum parity (payloadTop (0 : Data sampleParams))) n

/-- The header of the frame zero, and `n` flits behind it. -/
def frameZero (n : ℕ) : List (Raw sampleParams) :=
  pack 0 (controlTop header 0) ::
    zeros (checksum 0 (controlTop (P := sampleParams) header 0)) n

/-- Each flit is received and examined. -/
def receiveAll (flits : List (Raw sampleParams)) : List (Raw sampleParams ⊕ Rule sampleParams) :=
  flits.flatMap fun raw => [.inl raw, .inr .rxDemarsh]

/-- The frame zero is received and acknowledged, and is received again, and 127 payload flits are
received behind it without a header. One more is in the queue. -/
def frameZeroTwice : List (Raw sampleParams ⊕ Rule sampleParams) :=
  receiveAll (frameZero 128) ++ [.inr .txFC] ++ (receiveAll (frameZero 256)).dropLast

set_option maxRecDepth 4000 in
theorem frameZeroTwice_reachable : ∃ s x e', (observed sampleParams).Reachable s ∧
    s.2.gap = .ajar ∧ s.2.strays.length = 127 ∧ s.1.serdesInfifo = [x] ∧ kind x.raw = .payload ∧
    s.1.rxDemarsh = some e' ∧ s.1.ackSequenceNumberTX = [0] ∧
    e'.ackSequenceNumberTX = [0, 0] := by
  have hrun : ((frameZeroTwice.foldlM ((machine sampleParams).turn FrameEnds.note)
      (Endpoint.reset sampleParams, ⟨.shut, [], []⟩)).bind fun s => s.1.rxDemarsh.map fun e' =>
        (s.2.gap, s.2.strays.length, s.1.serdesInfifo.map fun x => kind x.raw,
          s.1.ackSequenceNumberTX, e'.ackSequenceNumberTX)) =
      some (.ajar, 127, [.payload], [0], [0, 0]) := by
    decide +kernel
  obtain ⟨s, hs, hlast⟩ := Option.bind_eq_some_iff.mp hrun
  obtain ⟨e', he', heq⟩ := Option.map_eq_some_iff.mp hlast
  simp only [Prod.mk.injEq] at heq
  obtain ⟨hgap, hstrays, hqueue, hacks, hacks'⟩ := heq
  obtain ⟨x, hx, hkind⟩ := List.map_eq_singleton_iff.mp hqueue
  exact ⟨s, x, e', LossyLink.watched_run hs, hgap, hstrays, hx, hkind, he', hacks, hacks'⟩

/-- The 127 flits have passed their check behind the end of the repeated frame. -/
theorem payload_between_frames_zero : ∃ s : Endpoint sampleParams × FrameEnds sampleParams,
    (observed sampleParams).Reachable s ∧ s.2.passed.length = 127 ∧
      s.1.frameErrorRX = false := by
  obtain ⟨s, x, e', h, hgap, hstrays, -⟩ := frameZeroTwice_reachable
  obtain ⟨hpassed, herr⟩ := payload_between_frames h
  refine ⟨s, h, by rw [← hpassed, hstrays], ?_⟩
  have hajar := herr (by simp [hgap])
  simpa [hgap] using hajar

/-- **Behind a repeated frame.** A payload flit without a header is acknowledged. -/
theorem acknowledged_without_header :
    ¬ ∀ (P : Params) (s : Endpoint P × FrameEnds P) (x : Flit (Raw P)) (rest : List (Flit (Raw P)))
      (e' : Endpoint P), (observed P).Reachable s → s.2.gap ≠ .inside →
      s.1.serdesInfifo = x :: rest → kind x.raw = .payload → s.1.rxDemarsh = some e' →
      e'.ackSequenceNumberTX = s.1.ackSequenceNumberTX := by
  intro hall
  obtain ⟨s, x, e', h, hgap, -, hx, hkind, he', hacks, hacks'⟩ := frameZeroTwice_reachable
  have heq := hall sampleParams s x [] e' h (by simp [hgap]) hx hkind he'
  rw [hacks, hacks'] at heq
  cases heq

end Reliable

end Aurora

end LeapPlatforms
