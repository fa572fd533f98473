import LeapPlatforms.Foundation.Watch
import LeapPlatforms.Aurora.ParityAgreement

/-!
# The receiver's own assertion

`rule framePositionAssertion` ends the simulation when `framePositionRX` exceeds the frame size,
which it truncates to the width of that register. The position never reaches the frame size,
whatever flits arrive. The truncated frame size is the frame size unless that is a power of two;
then it is zero, and the assertion fails with the first data flit that is accepted.

## Main definitions

* `frameLimit`, `framePositionAssertion` — the comparison of the rule
* `Within` — where the receiver can be in a frame
* `Emits` — a run of the sending rules of one endpoint
* `AssertionHolds`, `OverLossyLinks`, `OverPerfectLinks`

## Main results

* `frameLimit_eq_iff`
* `framePositionRX_lt` — the bound, for any flits received
* `exists_errorFree`, `exists_lossy` — one data flit
* `framePositionAssertion_iff`
-/

namespace LeapPlatforms

namespace Aurora

namespace AggregateCrc

open LossyLink (Flit Kind)
open Grouped (Core Raw Data Word)

variable {P : Params}

/-! ### The comparison -/

variable (P) in
/-- `truncateNP(frameSize)` in the width of `framePositionRX`. -/
def frameLimit : ℕ := P.format.frameCounter.mark % 2 ^ P.format.frameCounter.width

/-- The guard of `rule framePositionAssertion`, which ends the simulation. -/
def framePositionAssertion (c : Core P.format) : Bool := decide (frameLimit P < c.framePositionRX)

variable (P) in
/-- The frame size: `frame_words` words of `interface_words` data flits. -/
def frameSize : ℕ := 32 * P.interfaceWords

theorem frameCounter_size : P.format.frameCounter.size = frameSize P := rfl

theorem frameSize_gt : 1 < frameSize P := by
  have := P.interfaceWords_pos
  rw [frameSize]
  omega

/-- The frame size is a power of two exactly if the number of data flits in a word is one. -/
theorem frameSize_pow_iff : (∃ k, frameSize P = 2 ^ k) ↔ ∃ k, P.interfaceWords = 2 ^ k := by
  constructor
  · rintro ⟨k, hk⟩
    have hdvd : P.interfaceWords ∣ 2 ^ k := by
      rw [← hk, frameSize]
      exact Nat.dvd_mul_left _ _
    obtain ⟨j, _, hj⟩ := (Nat.dvd_prime_pow Nat.prime_two).mp hdvd
    exact ⟨j, hj⟩
  · rintro ⟨k, hk⟩
    refine ⟨5 + k, ?_⟩
    rw [frameSize, hk, Nat.pow_add]

/-- A power of two is truncated to zero. -/
theorem frameLimit_of_pow (h : ∃ k, P.interfaceWords = 2 ^ k) : frameLimit P = 0 := by
  obtain ⟨k, hk⟩ := frameSize_pow_iff.mpr h
  change frameSize P % 2 ^ Nat.clog 2 (frameSize P) = 0
  rw [hk, Nat.clog_pow 2 k Nat.one_lt_two, Nat.mod_self]

/-- **The comparison is with the frame size** exactly if that is no power of two. -/
theorem frameLimit_eq_iff : frameLimit P = frameSize P ↔ ¬∃ k, P.interfaceWords = 2 ^ k := by
  constructor
  · intro heq hpow
    rw [frameLimit_of_pow hpow] at heq
    have := frameSize_gt (P := P)
    omega
  · intro hpow
    have hle : frameSize P ≤ 2 ^ Nat.clog 2 (frameSize P) := Nat.le_pow_clog Nat.one_lt_two _
    have hne : frameSize P ≠ 2 ^ Nat.clog 2 (frameSize P) := fun heq =>
      hpow (frameSize_pow_iff.mp ⟨_, heq⟩)
    exact Nat.mod_eq_of_lt (Nat.lt_of_le_of_ne hle hne)

/-! ### The position in the frame -/

variable {c c' : Core P.format} {x : Flit (Raw P.format)} {e e' : Endpoint P}
  {out : Option (Raw P.format)}

/-- Where the receiver can be in a frame. -/
structure Within (c : Core P.format) : Prop where
  /-- The data flits accepted are fewer than a frame has. -/
  position : c.framePositionRX < frameSize P
  /-- In the frame that it waits for, the receiver has not passed the flits accepted. -/
  awaited : c.frameErrorRX = false → c.provisionalSequenceNumberRX = c.sequenceNumberRX →
    c.provisionalFramePositionRX ≤ c.framePositionRX
  /-- The group that is open lies in that frame. -/
  group : c.frameErrorRX = false → c.provisionalSequenceNumberRX = c.sequenceNumberRX →
    c.fragmentNumberRX ≤ c.provisionalFramePositionRX

/-- In error, only the position counts. -/
theorem Within.of_error (hpos : c.framePositionRX < frameSize P) (herr : c.frameErrorRX = true) :
    Within c where
  position := hpos
  awaited h := by
    rw [herr] at h
    cases h
  group h := by
    rw [herr] at h
    cases h

theorem Within.of_sameReceive (h : Within c) (hs : Grouped.SameReceive c c') : Within c' where
  position := by
    rw [hs.framePositionRX]
    exact h.position
  awaited := by
    rw [hs.frameErrorRX, hs.provisionalSequenceNumberRX, hs.sequenceNumberRX,
      hs.provisionalFramePositionRX, hs.framePositionRX]
    exact h.awaited
  group := by
    rw [hs.frameErrorRX, hs.provisionalSequenceNumberRX, hs.sequenceNumberRX, hs.fragmentNumberRX,
      hs.provisionalFramePositionRX]
    exact h.group

theorem fresh_cases (hf : c.fresh = true) :
    c.provisionalFramePositionRX = c.framePositionRX ∧
      c.provisionalSequenceNumberRX = c.sequenceNumberRX := by
  rw [Core.fresh, Bool.and_eq_true, beq_iff_eq, beq_iff_eq] at hf
  exact hf

/-- Giving up a group takes its flits back, and no more. -/
theorem Within.rollBackPosition_lt (h : Within c) (herr : c.frameErrorRX = false)
    (hf : c.fresh = true) : c.rollBackPosition < frameSize P := by
  obtain ⟨hpos, hseq⟩ := fresh_cases hf
  have hgroup := h.group herr hseq
  have hlt := h.position
  have hle : frameSize P ≤ 2 ^ P.format.frameCounter.width := Grouped.size_le_pow (F := P.format)
  rw [Core.rollBackPosition, show c.framePositionRX + 2 ^ P.format.frameCounter.width -
    c.fragmentNumberRX = c.framePositionRX - c.fragmentNumberRX +
      2 ^ P.format.frameCounter.width by omega, Nat.add_mod_right, Nat.mod_eq_of_lt (by omega)]
  omega

/-- A payload flit without error. -/
theorem Within.accepts (h : Within c) (herr : c.frameErrorRX = false) (ha : Core.Accepts c x c') :
    Within c' := by
  have hlt := h.position
  have hgroup : c'.fragmentNumberRX ≤ c.fragmentNumberRX + 1 := by
    rw [ha.fragmentNumberRX]
    split
    · exact Nat.zero_le _
    · exact Nat.mod_le _ _
  have hsucc : ∀ p, p + 1 < frameSize P → P.format.frameCounter.succ p = p + 1 := fun p hp =>
    FrameCounter.succ_eq (C := P.format.frameCounter) hp
  by_cases hf : c.fresh = true
  · obtain ⟨hpos, hseq⟩ := fresh_cases hf
    have hlast := FrameCounter.isLast_iff (C := P.format.frameCounter)
      (p := c.provisionalFramePositionRX) (by rwa [hpos])
    by_cases hend : P.format.frameCounter.isLast c.provisionalFramePositionRX = true
    · obtain ⟨herr', _, hzero⟩ := ha.last hf hend
      refine .of_error ?_ herr'
      rw [hzero]
      exact P.format.frameCounter.size_pos
    · have hroom : c.framePositionRX + 1 < frameSize P := by
        have hne : ¬c.provisionalFramePositionRX + 1 = frameSize P := fun heq =>
          hend (hlast.mpr heq)
        omega
      obtain ⟨_, _, hposition⟩ := ha.inside hf (by simpa using hend)
      have hprov := ha.provisionalFramePositionRX
      rw [hpos, hsucc _ hroom] at hprov
      rw [hsucc _ hroom] at hposition
      have hopen := h.group herr hseq
      refine ⟨by omega, fun _ _ => by omega, fun _ _ => by omega⟩
  · obtain ⟨_, _, hnumber, hposition⟩ := ha.old (by simpa using hf)
    have hopen : c'.provisionalSequenceNumberRX = c'.sequenceNumberRX →
        c'.provisionalFramePositionRX ≤ c.framePositionRX ∧
          c'.fragmentNumberRX ≤ c'.provisionalFramePositionRX := by
      intro hseq
      rw [ha.provisionalSequenceNumberRX, hnumber] at hseq
      have hle := h.awaited herr hseq
      have hopen := h.group herr hseq
      have hne : c.provisionalFramePositionRX ≠ c.framePositionRX := fun heq => hf (by
        rw [Core.fresh, heq, hseq, beq_self_eq_true, beq_self_eq_true]
        rfl)
      have hprov := ha.provisionalFramePositionRX
      rw [hsucc _ (by omega)] at hprov
      omega
    refine ⟨by rwa [hposition], fun _ hseq => ?_, fun _ hseq => (hopen hseq).2⟩
    rw [hposition]
    exact (hopen hseq).1

theorem Within.rxPayload (h : Within c) (hr : rxPayload x c = some c') : Within c' := by
  rw [AggregateCrc.rxPayload] at hr
  by_cases herr : c.frameErrorRX = true
  · rw [herr, Bool.not_true, Bool.and_false, Bool.and_false, if_neg Bool.false_ne_true,
      if_neg Bool.false_ne_true] at hr
    obtain rfl := Option.some.inj hr
    exact .of_error h.position herr
  · have herr : c.frameErrorRX = false := by simpa using herr
    by_cases hok : c.notCorrupt x = true
    · rw [hok, herr] at hr
      exact h.accepts herr (Core.acceptFragment_spec hr).2
    · rw [herr] at hr
      rw [if_neg (by simpa using hok), if_pos (by simpa using hok)] at hr
      obtain rfl := Option.some.inj hr
      refine .of_error ?_ rfl
      change (if c.fresh then rollBack c else c).framePositionRX < _
      by_cases hf : c.fresh = true
      · rw [if_pos hf]
        exact h.rollBackPosition_lt herr hf
      · rw [if_neg hf]
        exact h.position

theorem Within.rxHeader (h : Within c) : Within (rxHeader x c) := by
  refine ⟨?_, fun _ _ => Nat.zero_le _, fun _ _ => Nat.le_refl 0⟩
  change (if c.fresh && !c.frameErrorRX then rollBack c else c).framePositionRX < _
  by_cases hopen : (c.fresh && !c.frameErrorRX) = true
  · rw [if_pos hopen]
    obtain ⟨hf, herr⟩ := (Bool.and_eq_true ..).mp hopen
    exact h.rollBackPosition_lt (by simpa using herr) hf
  · rw [if_neg hopen]
    exact h.position

theorem Within.rxDemarsh (h : Within c) (hr : rxDemarsh c = some c') : Within c' := by
  rw [AggregateCrc.rxDemarsh] at hr
  split at hr
  · cases hr
  · next x rest hx =>
    have hrest : Within { c with serdesInfifo := rest } := ⟨h.position, h.awaited, h.group⟩
    dsimp only at hr
    split at hr
    · exact hrest.rxPayload hr
    · split at hr
      · obtain rfl := Option.some.inj hr
        exact hrest.rxHeader
      · split at hr
        · rw [Core.rxAck] at hr
          split at hr
          · split at hr
            · obtain rfl := Option.some.inj hr
              exact ⟨h.position, h.awaited, h.group⟩
            · cases hr
          · obtain rfl := Option.some.inj hr
            exact hrest
        · obtain rfl := Option.some.inj hr
          exact hrest

/-- **Every rule** keeps the receiver within the frame. -/
theorem Within.rule (h : Within e.core) (r : Rule P) (hr : rule r e = some (e', out)) :
    Within e'.core := by
  cases r with
  | shared r =>
    rcases Grouped.shared_cases r (withCore_cases hr) with hsame | hdone
    · exact h.of_sameReceive hsame
    · obtain ⟨_, heq⟩ := Core.rxDone_cases hdone
      rw [heq]
      exact ⟨h.position, h.awaited, h.group⟩
  | tickCC =>
    obtain ⟨e₁, htick, heq⟩ := Option.map_eq_some_iff.mp hr
    obtain ⟨rfl, rfl⟩ := Prod.mk.inj heq
    rw [Endpoint.tickCC] at htick
    split at htick
    · obtain rfl := Option.some.inj htick
      exact h
    · cases htick
  | txHeader =>
    obtain ⟨f, rfl, ht⟩ := Grouped.send_cases (withCore_cases hr)
    rw [Endpoint.txHeader] at ht
    split at ht
    · obtain ⟨_, _, _, _, heq⟩ := Core.txHeader_cases ht
      rw [heq]
      exact ⟨h.position, h.awaited, h.group⟩
    · cases ht
  | txACK =>
    obtain ⟨f, rfl, ht⟩ := Grouped.send_cases (withCore_cases hr)
    rw [Endpoint.txACK] at ht
    split at ht
    · obtain ⟨_, _, _, _, heq⟩ := Core.txACK_cases ht
      rw [heq]
      exact ⟨h.position, h.awaited, h.group⟩
    · cases ht
  | rxDemarsh =>
    obtain ⟨c, ht, heq⟩ := Option.map_eq_some_iff.mp (withCore_cases hr)
    obtain ⟨rfl, rfl⟩ := Prod.mk.inj heq
    exact h.rxDemarsh ht

/-- An endpoint that receives any flits. -/
def AnyFlits (e : Endpoint P) : Prop :=
  ∃ hist : Unit, ((machine P).watched (fun _ _ _ h => h) ()).Reachable (e, hist)

/-- **The position stays below the frame size**, whatever flits arrive. -/
theorem framePositionRX_lt (h : AnyFlits e) : e.core.framePositionRX < frameSize P := by
  obtain ⟨hist, hreach⟩ := h
  refine Within.position (LossyLink.watched_invariant (I := fun s _ => Within s.core) ?_ ?_ ?_ ?_
    hreach)
  · exact .of_error (Nat.lt_trans Nat.zero_lt_one frameSize_gt) rfl
  · intro s hist x s' h hin
    obtain ⟨core, hcore, rfl⟩ := Option.map_eq_some_iff.mp hin
    obtain rfl := Core.rxIntake_cases hcore
    exact ⟨h.position, h.awaited, h.group⟩
  · intro s hist r s' out h _ hr
    exact h.rule r hr
  · intro s hist r x s' out h _ hr
    exact h.rule r hr

/-! ### The first data flit -/

/-- A run of rules that examine nothing, with the flits that it sends. -/
inductive Emits : Endpoint P → List (Raw P.format) → Endpoint P → Prop
  /-- No rule. -/
  | nil (e : Endpoint P) : Emits e [] e
  /-- One rule more. -/
  | cons {e e' e'' : Endpoint P} {r : Rule P} {out : Option (Raw P.format)}
      {flits : List (Raw P.format)} : rule r e = some (e', out) → (machine P).examines r e = none →
      Emits e' flits e'' → Emits e (out.toList ++ flits) e''

theorem Emits.trans {e₁ e₂ e₃ : Endpoint P} {flits flits' : List (Raw P.format)}
    (h : Emits e₁ flits e₂) (h' : Emits e₂ flits' e₃) : Emits e₁ (flits ++ flits') e₃ := by
  induction h with
  | nil e => exact h'
  | cons hr hex _ ih =>
    rw [List.append_assoc]
    exact .cons hr hex (ih h')

/-- The endpoint waits for clock compensation. -/
theorem emits_tickCC (c : Core P.format) (n : ℕ) :
    Emits ({ core := c, ccCycles := n } : Endpoint P) [] { core := c, ccCycles := 0 } := by
  induction n with
  | zero => exact .nil _
  | succ n ih =>
    have hr : rule .tickCC ({ core := c, ccCycles := n + 1 } : Endpoint P) =
        some ({ core := c, ccCycles := n }, none) := rfl
    exact .cons hr rfl ih

/-- The header of the first frame. -/
def firstHeader : Raw P.format := Grouped.packControl P.format.header 0

/-- The checksum of that header. -/
def firstParity (P : Params) : BitVec 8 := Grouped.hashTX 0 (Grouped.controlData P.format.header 0)

/-- A data flit as the first of its frame. -/
def firstFragment (d : Data P.format) : Raw P.format :=
  Grouped.packFragment (firstParity P) (P.format.fragmentCounter.isLast 0) d

theorem not_isLast_zero : P.format.frameCounter.isLast 0 = false := by
  have hgt := frameSize_gt (P := P)
  rw [Bool.eq_false_iff, ne_eq, FrameCounter.isLast_iff (C := P.format.frameCounter)
    P.format.frameCounter.size_pos, frameCounter_size]
  omega

theorem succ_zero : P.format.frameCounter.succ 0 = 1 :=
  FrameCounter.succ_eq (C := P.format.frameCounter) frameSize_gt

/-- A word is given, and its first data flit is sent. -/
theorem exists_emits : ∃ (d : Data P.format) (e : Endpoint P),
    (P.format.fragmentCounter.isLast 0 = true → d.setWidth 8 = 0) ∧
      Emits (.reset P) [firstHeader, firstFragment d] e := by
  have hpos := P.interfaceWords_pos
  obtain ⟨d, rest, hsplit⟩ : ∃ d rest,
      Marshal.split P.format.interfaceWords (Grouped.pad (0 : Word P.format)) = d :: rest := by
    refine List.exists_cons_of_length_pos ?_
    rw [Marshal.length_split]
    exact hpos
  have hlow : P.format.fragmentCounter.isLast 0 = true → d.setWidth 8 = 0 := by
    intro hlast
    rw [FrameCounter.isLast_iff (C := P.format.fragmentCounter)
      P.format.fragmentCounter.size_pos] at hlast
    exact Grouped.split_low (Grouped.pad 0) (Nat.le_add_left _ _) (Grouped.pad_low 0) hlast (by
      rw [hsplit]
      rfl)
  -- the states between the rules
  let c₁ : Core P.format := { Core.reset P.format with serdesTxfifo := [0], given := [0] }
  let c₂ : Core P.format := { c₁ with serdesTxfifo := [], marshaller := d :: rest }
  let tx₃ : Sender (Data P.format) :=
    { Sender.reset with
      txSequenceRewindBuffer := RewindFifo.empty.enq 0
      sequenceNumberTX := 1 }
  let tx₄ : Sender (Data P.format) :=
    { tx₃ with frameInProgress := true, framePositionTX := 0, frameTimeout := [0] }
  let c₄ : Core P.format := { c₂ with tx := tx₄, fragmentNumberTX := 0, parityTX := firstParity P }
  let tx₅ : Sender (Data P.format) :=
    { tx₄ with txDataRewindBuffer := RewindFifo.empty.enq d }
  let c₅ : Core P.format := { c₄ with tx := tx₅, marshaller := rest }
  let tx₆ : Sender (Data P.format) :=
    { tx₅ with
      txDataRewindBuffer := (RewindFifo.empty.enq d).deq
      framePositionTX := P.format.frameCounter.succ 0 }
  have hwrite : rule (.shared (.write 0)) (⟨Core.reset P.format, 0⟩ : Endpoint P) =
      some (⟨c₁, 0⟩, none) := rfl
  have hcross : rule (.shared .crossDomain) (⟨c₁, 0⟩ : Endpoint P) = some (⟨c₂, 0⟩, none) := by
    change some ((⟨{ c₁ with serdesTxfifo := [], marshaller := Marshal.split _ (Grouped.pad 0) },
      0⟩ : Endpoint P), none) = _
    rw [hsplit]
  have hstuff : rule (.shared .sequenceStuffer) (⟨c₂, 0⟩ : Endpoint P) =
      some (⟨{ c₂ with tx := tx₃ }, 0⟩, none) := rfl
  have hheader : rule .txHeader (⟨{ c₂ with tx := tx₃ }, 0⟩ : Endpoint P) =
      some (⟨c₄, 0⟩, some firstHeader) := rfl
  have hpass : rule (.shared .passRewind) (⟨c₄, 0⟩ : Endpoint P) = some (⟨c₅, 0⟩, none) := by
    have hroom : 0 < maxFrames * P.format.frameCounter.size :=
      Nat.mul_pos Nat.two_pos P.format.frameCounter.size_pos
    have htx : tx₄.passRewind P.format.frameCounter d = some tx₅ := if_pos hroom
    simp only [rule, Grouped.SharedRule.rule, Core.passRewind, c₄, c₂, htx, Core.quiet,
      Endpoint.withCore, Option.map_some]
    rfl
  have hsend : rule (.shared .txSend) (⟨c₅, 0⟩ : Endpoint P) =
      some (⟨{ c₅ with
        tx := tx₆
        fragmentNumberTX := if P.format.fragmentCounter.isLast 0 then 0
          else P.format.fragmentCounter.succ 0
        parityTX := Grouped.hashTX (firstParity P) (Grouped.fragmentData d) }, 0⟩,
        some (firstFragment d)) := by
    have htx : tx₅.txSend P.format.frameCounter = some (tx₆, d) := by
      have hlast : P.format.frameCounter.isLast tx₅.framePositionTX = false := not_isLast_zero
      rw [Sender.txSend]
      change (if P.format.frameCounter.isLast tx₅.framePositionTX = true then _ else _) = _
      rw [hlast]
      rfl
    simp only [rule, Grouped.SharedRule.rule, Core.txSend, c₅, htx, Core.send, Endpoint.withCore,
      Option.map_some]
    rfl
  refine ⟨d, _, hlow, (emits_tickCC _ _).trans (.cons hwrite rfl (.cons hcross rfl
    (.cons hstuff rfl (.cons hheader rfl (.cons hpass rfl (.cons hsend rfl (.nil _)))))))⟩

/-- The receiver after the first header. -/
def afterHeader (x : Flit (Raw P.format)) : Core P.format := (Core.reset P.format).newFrame x false

/-- The first header is accepted. -/
theorem rxDemarsh_firstHeader {x : Flit (Raw P.format)} (hraw : x.raw = firstHeader)
    (hsoft : x.softErr = false) :
    rxDemarsh { Core.reset P.format with serdesInfifo := [x] } = some (afterHeader x) := by
  have hpay : Grouped.ctrlOf x.raw ≠ Grouped.payload := by
    rw [hraw]
    exact Grouped.ctrlOf_control_ne P.format.header_msb 0
  have htag : Grouped.tagOf x.raw = P.format.header := by
    rw [hraw]
    exact Grouped.tagOf_packControl _ 0
  have hseq : Grouped.sequenceOf x.raw = 0 := by
    rw [hraw]
    exact Grouped.sequenceOf_packControl _ (by decide)
  have hok : (Core.reset P.format).notCorrupt x = true := by
    rw [Grouped.notCorrupt_eq_clean hsoft, hraw]
    exact Grouped.clean_control P.format.header_msb 0
  have herr : (futureFrame 0 (Grouped.sequenceOf x.raw) || !(Core.reset P.format).notCorrupt x) =
      false := by
    rw [hseq, hok]
    rfl
  change (if Grouped.ctrlOf x.raw = Grouped.payload then _ else if Grouped.tagOf x.raw =
    P.format.header then some ((Core.reset P.format).newFrame x
      (futureFrame 0 (Grouped.sequenceOf x.raw) || !(Core.reset P.format).notCorrupt x)) else _) = _
  rw [if_neg hpay, if_pos htag, herr]
  rfl

/-- The first data flit is accepted, and the position is one. -/
theorem rxDemarsh_firstFragment {x y : Flit (Raw P.format)} {d : Data P.format}
    (hx : x.raw = firstHeader) (hy : y.raw = firstFragment d) (hsoft : y.softErr = false)
    (hlow : P.format.fragmentCounter.isLast 0 = true → d.setWidth 8 = 0) :
    ∃ c', rxDemarsh { afterHeader x with serdesInfifo := [y] } = some c' ∧
      c'.framePositionRX = 1 := by
  have hpay : Grouped.ctrlOf y.raw = Grouped.payload := by
    rw [hy]
    exact Grouped.ctrlOf_packFragment _ _ _
  have hparity : (afterHeader x).placeRX = ⟨0, firstParity P⟩ := by
    change (⟨0, Grouped.hashOf x.raw⟩ : Grouped.Place) = _
    rw [hx, firstHeader, Grouped.packControl,
      Grouped.hashOf_mix (Grouped.controlData_low P.format.header 0)]
    rfl
  have hok : (afterHeader x).notCorrupt y = true := by
    rw [Grouped.notCorrupt_eq_clean hsoft, hparity, hy]
    exact Grouped.clean_packFragment (t := ⟨0, firstParity P⟩) hlow
  have hseq : (afterHeader x).provisionalSequenceNumberRX = 0 := by
    change Grouped.sequenceOf x.raw = 0
    rw [hx]
    exact Grouped.sequenceOf_packControl _ (by decide)
  have hfresh : (afterHeader x).fresh = true := by
    rw [Core.fresh, hseq]
    rfl
  have hroom : 0 < P.format.interfaceWords := P.interfaceWords_pos
  change ∃ c', (if Grouped.ctrlOf y.raw = Grouped.payload then rxPayload y (afterHeader x) else _) =
    some c' ∧ _
  rw [if_pos hpay, rxPayload, hok, if_pos (by rfl), Core.acceptFragment, hfresh, if_pos rfl,
    Core.enqFragment, if_pos (show ((afterHeader x).nextPosition.nextFragment y).demarshaller.length <
      P.format.interfaceWords from hroom), Option.bind_some,
    if_neg (show ¬P.format.frameCounter.isLast (afterHeader x).provisionalFramePositionRX = true from
      by
        change ¬P.format.frameCounter.isLast 0 = true
        rw [not_isLast_zero]
        exact Bool.false_ne_true)]
  refine ⟨_, rfl, ?_⟩
  change (if P.format.frameCounter.isLast 0 = true then 0 else P.format.frameCounter.succ 0) = 1
  rw [not_isLast_zero, if_neg Bool.false_ne_true, succ_zero]

/-- The receive queue is empty, and a flit fits it. -/
theorem rxIntake_empty {c : Core P.format} (hempty : c.serdesInfifo = []) (x : Flit (Raw P.format)) :
    c.rxIntake x = some { c with serdesInfifo := [x] } := by
  have hroom : c.serdesInfifo.length < P.format.totalCredits := by
    rw [hempty]
    exact Nat.mul_pos P.format.frameCounter.size_pos Nat.two_pos
  rw [Core.rxIntake, if_pos hroom, hempty]
  rfl

/-! ### Over a perfect link -/

theorem exists_observed {r : Rule P} {o : Observed P} (h : rule r o.ep = some (e', out)) :
    ∃ o', o.rule r = some (o', out) ∧ o'.ep = e' := by
  rw [Observed.rule, h]
  exact ⟨_, rfl, rfl⟩

section Perfect

open FifoLink (Side Move)

variable {s p : Side (Observed P) (Raw P.format)}

/-- What an endpoint sends enters its link. -/
theorem emits_errorFree {flits : List (Raw P.format)} (h : Emits e flits e') (hs : s.ep.ep = e)
    (hreach : (errorFreeSystem P).Reachable ⟨s, p⟩) :
    ∃ s', (errorFreeSystem P).Reachable ⟨s', p⟩ ∧ s'.link = s.link ++ flits := by
  induction h generalizing s with
  | nil e => exact ⟨s, hreach, by simp⟩
  | @cons e e₁ e' r out flits hr _ _ ih =>
    rw [← hs] at hr
    obtain ⟨o, ho, hep⟩ := exists_observed hr
    obtain ⟨s', hs', hlink⟩ := ih (s := ⟨o, s.link ++ out.toList⟩) hep
      (hreach.step (Or.inl (.rule s p r o out ho)))
    exact ⟨s', hs', by rw [hlink, List.append_assoc]⟩

/-- The peer takes a flit and examines it. -/
theorem takes_errorFree {raw : Raw P.format} {rest : List (Raw P.format)} {c c' : Core P.format}
    (hp : p.ep.ep.core = c) (hempty : c.serdesInfifo = []) (hlink : s.link = raw :: rest)
    (hr : rxDemarsh { c with serdesInfifo := [⟨raw, false, raw, 0⟩] } = some c')
    (hreach : (errorFreeSystem P).Reachable ⟨s, p⟩) :
    ∃ s' p', (errorFreeSystem P).Reachable ⟨s', p'⟩ ∧ s'.link = rest ∧ p'.ep.ep.core = c' := by
  have hin : p.ep.intake raw = some { p.ep with ep :=
      { p.ep.ep with core := { c with serdesInfifo := [⟨raw, false, raw, 0⟩] } } } := by
    rw [Observed.intake]
    change ((p.ep.ep.core.rxIntake _).map _).map _ = _
    rw [hp, rxIntake_empty hempty]
    rfl
  have hrule : rule .rxDemarsh { p.ep.ep with core := { c with serdesInfifo :=
      [⟨raw, false, raw, 0⟩] } } = some ({ p.ep.ep with core := c' }, none) := by
    change ({ p.ep.ep with core := { c with serdesInfifo :=
      [⟨raw, false, raw, 0⟩] } } : Endpoint P).withCore (Core.quiet (rxDemarsh _)) = _
    rw [hr]
    rfl
  let q : Side (Observed P) (Raw P.format) := { p with ep := { p.ep with ep :=
    { p.ep.ep with core := { c with serdesInfifo := [⟨raw, false, raw, 0⟩] } } } }
  obtain ⟨o, ho, hep⟩ := exists_observed (o := q.ep) hrule
  have hintake : Move (errorFree P) p s q { s with link := rest } := .intake p s raw rest _ hlink hin
  have hexamine : Move (errorFree P) q { s with link := rest }
    { ep := o, link := q.link ++ (none : Option (Raw P.format)).toList } { s with link := rest } :=
      .rule q _ Rule.rxDemarsh o none ho
  have hreach₁ : (errorFreeSystem P).Reachable ⟨{ s with link := rest }, q⟩ :=
    hreach.step (Or.inr hintake)
  exact ⟨_, _, hreach₁.step (t := ⟨_, _⟩) (Or.inr hexamine), rfl, by rw [hep]⟩

variable (P) in
/-- **One data flit over a perfect link** takes the position to one. -/
theorem exists_errorFree :
    ∃ d, (errorFreeSystem P).Reachable d ∧ d.b.ep.ep.core.framePositionRX = 1 := by
  obtain ⟨d, e, hlow, hemits⟩ := exists_emits (P := P)
  obtain ⟨s, hs, hlink⟩ := emits_errorFree hemits (s := observedReset P) (p := observedReset P) rfl
    (.init rfl)
  obtain ⟨s₁, p₁, hs₁, hlink₁, hp₁⟩ := takes_errorFree (c := Core.reset P.format) rfl rfl hlink
    (rxDemarsh_firstHeader rfl rfl) hs
  obtain ⟨c', hfragment, hone⟩ := rxDemarsh_firstFragment
    (x := ⟨firstHeader, false, firstHeader, 0⟩)
    (y := ⟨firstFragment d, false, firstFragment d, 0⟩) rfl rfl rfl hlow
  obtain ⟨s₂, p₂, hs₂, _, hp₂⟩ := takes_errorFree hp₁ rfl hlink₁ hfragment hs₁
  exact ⟨_, hs₂, by rw [hp₂, hone]⟩

end Perfect

/-! ### Over a lossy link -/

section Lossy

open LossyLink (Side Move Genuine observe)

variable {s p : Side (Endpoint P) (Raw P.format)}

/-- Flits as they enter the link, of which so many chained ones were sent before. -/
def labels : ℕ → List (Raw P.format) → List (Flit (Raw P.format))
  | _, [] => []
  | n, f :: flits =>
    ⟨f, false, f, n⟩ :: labels (n + if (Grouped.kind f).chained then 1 else 0) flits

/-- What an endpoint sends enters its link. -/
theorem emits_lossy {flits : List (Raw P.format)} (h : Emits e flits e') (hs : s.ep = e)
    (hreach : (LossyLink.system (machine P)).Reachable ⟨s, p⟩) :
    ∃ s', (LossyLink.system (machine P)).Reachable ⟨s', p⟩ ∧
      s'.link = s.link ++ labels s.sent flits := by
  induction h generalizing s with
  | nil e => exact ⟨s, hreach, by simp [labels]⟩
  | @cons e e₁ e' r out flits hr hex _ ih =>
    rw [← hs] at hr hex
    have hmove : Move (machine P) s p (s.fire (machine P) e₁ out none) p := by
      have hrule := Move.rule (M := machine P) s p r e₁ out hr (by
        intro x hx
        rw [hex] at hx
        cases hx)
      rwa [hex] at hrule
    obtain ⟨s', hs', hlink⟩ := ih (s := s.fire (machine P) e₁ out none) rfl
      (hreach.step (Or.inl hmove))
    refine ⟨s', hs', ?_⟩
    rw [hlink]
    rcases out with _ | f
    · rw [Side.fire_none]
      rfl
    · change (s.link ++ [s.label f]) ++ labels (s.sent +
        (Option.filter (fun f => (Grouped.kind f).chained) (some f)).toList.length) flits = _
      rw [List.append_assoc, Option.filter]
      by_cases hchained : (Grouped.kind f).chained = true
      · simp [labels, Side.label, hchained]
      · simp [labels, Side.label, hchained]

/-- The peer takes a flit and examines it, if its check is worth something. -/
theorem takes_lossy {x : Flit (Raw P.format)} {rest : List (Flit (Raw P.format))}
    {c c' : Core P.format} (hp : p.ep.core = c) (hempty : c.serdesInfifo = [])
    (hlink : s.link = x :: rest) (hr : rxDemarsh { c with serdesInfifo := [x] } = some c')
    (hgen : Core.passes { c with serdesInfifo := [x] } x = true → Genuine Grouped.kind p.chain x)
    (hreach : (LossyLink.system (machine P)).Reachable ⟨s, p⟩) :
    ∃ s' p', (LossyLink.system (machine P)).Reachable ⟨s', p'⟩ ∧ s'.link = rest ∧
      p'.ep.core = c' ∧ p'.chain = observe Grouped.kind p.chain x := by
  have hin : (machine P).intake x p.ep =
      some { p.ep with core := { c with serdesInfifo := [x] } } := by
    change (p.ep.core.rxIntake x).map _ = _
    rw [hp, rxIntake_empty hempty]
    rfl
  have hrule : rule .rxDemarsh ({ p.ep with core := { c with serdesInfifo := [x] } } : Endpoint P) =
      some ({ p.ep with core := c' }, none) := by
    change ({ p.ep with core := { c with serdesInfifo := [x] } } : Endpoint P).withCore
      (Core.quiet (rxDemarsh _)) = _
    rw [hr]
    rfl
  let q : Side (Endpoint P) (Raw P.format) :=
    { p with ep := { p.ep with core := { c with serdesInfifo := [x] } } }
  have hintake : Move (machine P) p s q { s with link := rest } := .intake p s x rest _ hlink hin
  have hexamine : Move (machine P) q { s with link := rest }
      (q.fire (machine P) { p.ep with core := c' } none (some x)) { s with link := rest } :=
    .rule q _ Rule.rxDemarsh _ none hrule (by
      intro y hy hpass
      obtain rfl : x = y := Option.some.inj hy
      exact hgen hpass)
  have hreach₁ : (LossyLink.system (machine P)).Reachable ⟨{ s with link := rest }, q⟩ :=
    hreach.step (Or.inr hintake)
  exact ⟨_, _, hreach₁.step (t := ⟨_, _⟩) (Or.inr hexamine), rfl, rfl, rfl⟩

variable (P) in
/-- **One data flit over a lossy link** takes the position to one. -/
theorem exists_lossy :
    ∃ d, (LossyLink.system (machine P)).Reachable d ∧ d.b.ep.core.framePositionRX = 1 := by
  obtain ⟨d, e, hlow, hemits⟩ := exists_emits (P := P)
  obtain ⟨s, hs, hlink⟩ := emits_lossy hemits (s := Side.reset (machine P))
    (p := Side.reset (machine P)) rfl (.init rfl)
  have hkind : Grouped.kind (firstHeader (P := P)) = .header := Grouped.kind_header 0
  have hlabels : s.link = [⟨firstHeader, false, firstHeader, 0⟩,
      ⟨firstFragment d, false, firstFragment d, 1⟩] := by
    rw [hlink]
    change labels 0 _ = _
    rw [labels, labels, labels, hkind]
    rfl
  obtain ⟨s₁, p₁, hs₁, hlink₁, hp₁, hchain₁⟩ := takes_lossy (c := Core.reset P.format) rfl rfl
    hlabels (rxDemarsh_firstHeader rfl rfl) (by
      intro hpass
      rw [Core.passes, hkind, Bool.and_false] at hpass
      cases hpass) hs
  obtain ⟨c', hfragment, hone⟩ := rxDemarsh_firstFragment
    (x := ⟨firstHeader, false, firstHeader, 0⟩)
    (y := ⟨firstFragment d, false, firstFragment d, 1⟩) rfl rfl rfl hlow
  have hchain : p₁.chain = some 1 := by
    rw [hchain₁, observe, hkind]
    exact if_pos rfl
  obtain ⟨s₂, p₂, hs₂, _, hp₂, _⟩ := takes_lossy hp₁ rfl hlink₁ hfragment
    (fun _ => ⟨rfl, fun _ => hchain⟩) hs₁
  exact ⟨_, hs₂, by rw [hp₂, hone]⟩

end Lossy

/-! ### When the assertion holds -/

/-- An endpoint of two over lossy links. -/
def OverLossyLinks (e : Endpoint P) : Prop :=
  ∃ d, (LossyLink.system (machine P)).Reachable d ∧ (d.a.ep = e ∨ d.b.ep = e)

/-- An endpoint of two over perfect links. -/
def OverPerfectLinks (e : Endpoint P) : Prop :=
  ∃ d, (errorFreeSystem P).Reachable d ∧ (d.a.ep.ep = e ∨ d.b.ep.ep = e)

theorem anyFlits_of_lossy (h : OverLossyLinks e) : AnyFlits e := by
  obtain ⟨d, hd, heq⟩ := h
  obtain ⟨ha, hb⟩ := LossyLink.exists_watched (H := Unit) (fun _ _ _ h => h) () hd
  rcases heq with rfl | rfl
  · exact ha
  · exact hb

theorem anyFlits_step {s p s' p' : FifoLink.Side (Observed P) (Raw P.format)}
    (hs : AnyFlits s.ep.ep) (hmove : FifoLink.Move (errorFree P) s p s' p') :
    AnyFlits s'.ep.ep ∧ p'.ep = p.ep := by
  obtain ⟨hist, hreach⟩ := hs
  cases hmove with
  | rule r o out hr =>
    obtain ⟨ep, hep, rfl⟩ := observed_rule_cases hr
    exact ⟨⟨(), hreach.step (.rule hep)⟩, rfl⟩
  | intake raw rest o hlink hin =>
    obtain ⟨ep, hep, rfl⟩ := Option.map_eq_some_iff.mp hin
    exact ⟨⟨hist, hreach.step (.intake hep)⟩, rfl⟩

theorem anyFlits_of_perfect (h : OverPerfectLinks e) : AnyFlits e := by
  obtain ⟨d, hd, heq⟩ := h
  have hboth : AnyFlits d.a.ep.ep ∧ AnyFlits d.b.ep.ep := by
    refine hd.invariant (P := fun d => AnyFlits d.a.ep.ep ∧ AnyFlits d.b.ep.ep) ?_ ?_
    · rintro _ rfl
      exact ⟨⟨(), .init rfl⟩, ⟨(), .init rfl⟩⟩
    · rintro d d' ⟨ha, hb⟩ (hmove | hmove)
      · obtain ⟨ha', hpeer⟩ := anyFlits_step ha hmove
        exact ⟨ha', hpeer ▸ hb⟩
      · obtain ⟨hb', hpeer⟩ := anyFlits_step hb hmove
        exact ⟨hpeer ▸ ha, hb'⟩
  rcases heq with rfl | rfl
  · exact hboth.1
  · exact hboth.2

variable (P) in
/-- The rule never fires in the states in question: the position does not pass the frame size, which
is what it is compared with. -/
def AssertionHolds (reached : Endpoint P → Prop) : Prop :=
  frameLimit P = frameSize P ∧ ∀ e, reached e →
    e.core.framePositionRX ≤ frameSize P ∧ framePositionAssertion e.core = false

theorem assertionHolds_iff {reached : Endpoint P → Prop} (h : ∀ e, reached e → AnyFlits e) :
    AssertionHolds P reached ↔ ¬∃ k, P.interfaceWords = 2 ^ k := by
  rw [← frameLimit_eq_iff]
  refine ⟨fun hholds => hholds.1, fun heq => ⟨heq, fun e he => ?_⟩⟩
  have hlt := framePositionRX_lt (h e he)
  refine ⟨Nat.le_of_lt hlt, ?_⟩
  rw [framePositionAssertion, decide_eq_false_iff_not, heq]
  exact Nat.lt_asymm hlt

theorem framePositionAssertion_of_one (hpow : ∃ k, P.interfaceWords = 2 ^ k)
    (hone : c.framePositionRX = 1) : framePositionAssertion c = true := by
  rw [framePositionAssertion, frameLimit_of_pow hpow, hone]
  rfl

/-- **When the receiver's assertion holds.** Over lossy links, over perfect links, and whatever
flits arrive, it holds exactly if the number of data flits in a word is no power of two. Where it is
one, the rule fires with the first data flit that is accepted. -/
theorem framePositionAssertion_iff (P : Params) :
    (AssertionHolds P OverLossyLinks ↔ ¬∃ k, P.interfaceWords = 2 ^ k) ∧
      (AssertionHolds P OverPerfectLinks ↔ ¬∃ k, P.interfaceWords = 2 ^ k) ∧
      (AssertionHolds P AnyFlits ↔ ¬∃ k, P.interfaceWords = 2 ^ k) ∧
      ((∃ k, P.interfaceWords = 2 ^ k) →
        (∃ e : Endpoint P, OverLossyLinks e ∧ framePositionAssertion e.core = true) ∧
          ∃ e : Endpoint P, OverPerfectLinks e ∧ framePositionAssertion e.core = true) := by
  refine ⟨assertionHolds_iff fun _ => anyFlits_of_lossy,
    assertionHolds_iff fun _ => anyFlits_of_perfect, assertionHolds_iff fun _ h => h,
    fun hpow => ⟨?_, ?_⟩⟩
  · obtain ⟨d, hd, hone⟩ := exists_lossy P
    exact ⟨_, ⟨d, hd, Or.inr rfl⟩, framePositionAssertion_of_one hpow hone⟩
  · obtain ⟨d, hd, hone⟩ := exists_errorFree P
    exact ⟨_, ⟨d, hd, Or.inr rfl⟩, framePositionAssertion_of_one hpow hone⟩

/-- Two data flits in a word: the rule fires. -/
theorem assertion_fires_two : frameSize sampleParams = 64 ∧ frameLimit sampleParams = 0 ∧
    ∃ e : Endpoint sampleParams, OverPerfectLinks e ∧ e.core.framePositionRX = 1 ∧
      framePositionAssertion e.core = true := by
  have hpow : ∃ k, sampleParams.interfaceWords = 2 ^ k := ⟨1, rfl⟩
  obtain ⟨d, hd, hone⟩ := exists_errorFree sampleParams
  exact ⟨rfl, frameLimit_of_pow hpow, _, ⟨d, hd, Or.inr rfl⟩, hone,
    framePositionAssertion_of_one hpow hone⟩

end AggregateCrc

end Aurora

end LeapPlatforms
