import LeapPlatforms.Aurora.FlowControl

/-!
# Framing on the link of the flow-control driver

Only the first flit of a word says what it is, so the receiver has to know where a word starts. It
counts the flits of a word as the sender does, and between the two counts lies the link: `Framed`
says that the flits on the link take the receiver's count to the sender's, each of them in a place
where the receiver takes it for what it was sent as.

## Main definitions

* `Flit.fits`, `Framed` — flits in their places
* `Frames` — one direction between two endpoints

## Main results

* `classify_of_fits` — a flit in its place is taken for what it was sent as
* `rxIntake_cases` — what the receiver does with it
* `Frames.control`, `Frames.load`, `Frames.send`, `Frames.take`
-/

namespace LeapPlatforms

namespace Aurora

namespace FlowControl

open FifoLink (Side)

variable {P : Params}

/-! ### Flits -/

@[simp] theorem tagOf_heartbeatWord (done : Bool) (consecutive number : BitVec 5) :
    tagOf (P := P) (heartbeatWord done consecutive number) = heartbeatTag := by
  rw [tagOf, heartbeatWord, BitVec.extractLsb'_append_eq_of_le (Nat.le_refl _)]
  simp

@[simp] theorem tagOf_creditWord (value : ℕ) :
    tagOf (P := P) (creditWord value) = creditTag := by
  rw [tagOf, creditWord, BitVec.extractLsb'_append_eq_of_le (Nat.le_refl _)]
  simp

/-- A credit message carries its value. -/
theorem toNat_creditWord {value : ℕ} (h : value < creditRange) :
    (creditWord (P := P) value).toNat % creditRange = value := by
  have hdvd : creditRange ∣ 2 ^ P.widthExtra :=
    Nat.pow_dvd_pow 2 (Nat.le_trans (by decide) P.widthExtra_ge)
  rw [creditWord, BitVec.toNat_append, Nat.shiftLeft_add_eq_or_of_lt (BitVec.isLt _) creditTag.toNat
    |>.symm, BitVec.toNat_ofNat, Nat.shiftLeft_eq, Nat.add_mod,
    Nat.mod_eq_zero_of_dvd (Nat.dvd_mul_left_of_dvd hdvd _), Nat.zero_add, Nat.mod_mod,
    Nat.mod_mod_of_dvd _ hdvd, Nat.mod_eq_of_lt h]

/-- The first flit of a word is neither a heartbeat nor a credit message. -/
def Plain (raw : Raw P) : Prop := tagOf raw ≠ creditTag ∧ tagOf raw ≠ heartbeatTag

/-- Cut into flits, a word starts with a plain one. -/
theorem plain_of_head {w : Word P} {d : Raw P} {rest : List (Raw P)}
    (h : Marshal.split P.interfaceWords (extend w) = d :: rest) : Plain d := by
  have htop : (tagOf d).getLsbD 1 = false := by
    have hpos : (P.interfaceWords - 1) * P.width + P.width = P.interfaceWords * P.width := by
      rw [← Nat.succ_mul, Nat.succ_eq_add_one, Nat.sub_add_cancel P.interfaceWords_pos]
    have hadd := wordSize_add (P := P)
    have hwidth : P.width = 2 + P.widthExtra := rfl
    rw [Marshal.eq_of_split_eq_cons h, tagOf, BitVec.getLsbD_extractLsb',
      BitVec.getLsbD_extractLsb', extend, BitVec.getLsbD_cast, BitVec.getLsbD_append,
      if_neg (by omega)]
    simp
  constructor
  · intro htag
    rw [htag] at htop
    cases htop
  · intro htag
    rw [htag] at htop
    cases htop

/-- A word is what is left of it without the bit that was added. -/
@[simp] theorem restrict_extend (w : Word P) : restrict (extend w) = w := by
  refine BitVec.eq_of_toNat_eq ?_
  rw [restrict, extend, BitVec.extractLsb'_toNat, BitVec.toNat_cast, BitVec.toNat_append]
  simp

/-! ### Positions -/

/-- The position in a word after one more flit of it. -/
def after (k : ℕ) : ℕ := if P.flitCounter.isLast k then 0 else P.flitCounter.succ k

theorem after_last {k : ℕ} (h : k + 1 = P.interfaceWords) : after (P := P) k = 0 := by
  rw [after, if_pos ((FrameCounter.isLast_iff (C := P.flitCounter) (by
    show k < P.interfaceWords
    omega)).mpr h)]

theorem after_inside {k : ℕ} (h : k + 1 < P.interfaceWords) : after (P := P) k = k + 1 := by
  have hnot : ¬ P.flitCounter.isLast k = true := by
    rw [FrameCounter.isLast_iff (C := P.flitCounter) (by
      show k < P.interfaceWords
      omega)]
    show ¬ k + 1 = P.interfaceWords
    omega
  rw [after, if_neg hnot]
  exact FrameCounter.succ_eq (C := P.flitCounter) h

theorem after_lt (k : ℕ) (h : k < P.interfaceWords) : after (P := P) k < P.interfaceWords := by
  rcases Nat.lt_or_ge (k + 1) P.interfaceWords with hlt | hge
  · rw [after_inside hlt]
    exact hlt
  · rw [after_last (by omega)]
    exact P.interfaceWords_pos

/-! ### Flits in their places -/

/-- A flit where the receiver, at position `k` of a word, takes it for what it was sent as. -/
def Flit.fits (x : Flit P) (k : ℕ) : Prop :=
  match x.sent with
  | .heartbeat i consecutive =>
    k = 0 ∧ ∃ done, x.raw = heartbeatWord done consecutive (BitVec.ofNat 5 i)
  | .credit value => k = 0 ∧ x.raw = creditWord value ∧ value < creditRange
  | .data => k = 0 → Plain x.raw

/-- The position in a word after a flit of any kind. -/
def Flit.moves (x : Flit P) (k : ℕ) : ℕ := if x.sent = .data then after (P := P) k else k

/-- Flits that take the position `k` to `k'`, each of them in its place. -/
inductive Framed : ℕ → List (Flit P) → ℕ → Prop
  | nil (k : ℕ) : Framed k [] k
  | cons {k k' : ℕ} {x : Flit P} {l : List (Flit P)} : x.fits k → Framed (x.moves k) l k' →
      Framed k (x :: l) k'

theorem Framed.concat {k k' : ℕ} {l : List (Flit P)} {x : Flit P} (h : Framed k l k')
    (hx : x.fits k') : Framed k (l ++ [x]) (x.moves k') := by
  induction h with
  | nil k => exact .cons hx (.nil _)
  | cons hfits _ ih => exact .cons hfits (ih hx)

/-- **Classification.** The receiver takes a flit in its place for what it was sent as. -/
theorem classify_of_fits {e : Endpoint P} {x : Flit P} (h : x.fits e.flitCountRX) :
    e.classify x.raw = x.sent.kind := by
  rw [Endpoint.classify]
  cases hs : x.sent with
  | heartbeat i consecutive =>
    rw [Flit.fits, hs] at h
    obtain ⟨hk, done, hraw⟩ := h
    rw [if_pos hk, hraw, tagOf_heartbeatWord, if_neg (by decide), if_pos rfl]
    rfl
  | credit value =>
    rw [Flit.fits, hs] at h
    obtain ⟨hk, hraw, _⟩ := h
    rw [if_pos hk, hraw, tagOf_creditWord, if_pos rfl]
    rfl
  | data =>
    rw [Flit.fits, hs] at h
    by_cases hk : e.flitCountRX = 0
    · rw [if_pos hk, if_neg (h hk).1, if_neg (h hk).2]
      rfl
    · rw [if_neg hk]
      rfl

/-- Past the handshake the receiver treats a flit as what it takes it for. -/
theorem rxIntake_eq {e : Endpoint P} (h : e.handshakeRXDone = true) (data : Raw P) :
    e.rxIntake data =
      match e.classify data with
      | .heartbeat => some (e.rxHeartbeat data)
      | .credit => e.rxCredit data
      | .data => e.rxData data := by
  rw [Endpoint.rxIntake, Endpoint.classify]
  by_cases hk : e.flitCountRX = 0
  · rw [if_pos hk, if_pos hk]
    by_cases hc : tagOf data = creditTag
    · rw [if_pos hc, if_pos hc, if_pos h]
    · rw [if_neg hc, if_neg hc]
      by_cases hb : tagOf data = heartbeatTag
      · rw [if_pos hb, if_pos hb]
      · rw [if_neg hb, if_neg hb, if_pos h]
  · rw [if_neg hk, if_neg hk]

/-- What the receiver does with a flit in its place, once its handshake allows. -/
theorem rxIntake_cases {e e' : Endpoint P} {x : Flit P} (h : x.fits e.flitCountRX)
    (hready : x.sent.kind ≠ .heartbeat → e.handshakeRXDone = true)
    (ht : e.rxIntake x.raw = some e') :
    (∃ i consecutive, x.sent = .heartbeat i consecutive ∧ e' = e.rxHeartbeat x.raw) ∨
    (∃ value, x.sent = .credit value ∧ e' = { e with
      creditFIFO := e.creditFIFO ++ [value], creditsReceived := e.creditsReceived ++ [value] }) ∨
    (x.sent = .data ∧ e' = { e with
      serdesInfifo := e.serdesInfifo ++ [x.raw], flitCountRX := after (P := P) e.flitCountRX }) := by
  have hdata : ∀ e'', e.rxData x.raw = some e'' → e'' = { e with
      serdesInfifo := e.serdesInfifo ++ [x.raw], flitCountRX := after (P := P) e.flitCountRX } := by
    intro e'' hd
    rw [Endpoint.rxData] at hd
    split at hd
    · exact (Option.some.inj hd).symm
    · cases hd
  rw [Endpoint.rxIntake] at ht
  cases hs : x.sent with
  | heartbeat i consecutive =>
    rw [Flit.fits, hs] at h
    obtain ⟨hk, done, hraw⟩ := h
    rw [if_pos hk, hraw, tagOf_heartbeatWord, if_neg (by decide), if_pos rfl, ← hraw] at ht
    exact Or.inl ⟨i, consecutive, rfl, (Option.some.inj ht).symm⟩
  | credit value =>
    rw [hs] at hready
    rw [Flit.fits, hs] at h
    obtain ⟨hk, hraw, hlt⟩ := h
    rw [if_pos hk, hraw, tagOf_creditWord, if_pos rfl, if_pos (hready (by rintro ⟨⟩)),
      Endpoint.rxCredit] at ht
    split at ht
    · refine Or.inr (Or.inl ⟨value, rfl, ?_⟩)
      rw [← Option.some.inj ht, toNat_creditWord hlt]
    · cases ht
  | data =>
    rw [hs] at hready
    rw [Flit.fits, hs] at h
    refine Or.inr (Or.inr ⟨rfl, hdata e' ?_⟩)
    by_cases hk : e.flitCountRX = 0
    · rw [if_pos hk, if_neg (h hk).1, if_neg (h hk).2, if_pos (hready (by rintro ⟨⟩))] at ht
      exact ht
    · rw [if_neg hk] at ht
      exact ht

/-! ### One direction -/

/-- The flits between two endpoints are in their places. -/
structure Frames (s p : Side (Endpoint P) (Flit P)) : Prop where
  /-- The receiver's position. -/
  countRX_lt : p.ep.flitCountRX < P.interfaceWords
  /-- The sender's position. -/
  countTX_lt : s.ep.flitCountTX < P.interfaceWords
  /-- The link takes the one to the other. -/
  framed : Framed p.ep.flitCountRX s.link s.ep.flitCountTX
  /-- The marshaller holds the rest of the word, if one was begun. -/
  marshaller : s.ep.marshaller = [] ∧ s.ep.flitCountTX = 0 ∨
    s.ep.marshaller ≠ [] ∧ s.ep.marshaller.length + s.ep.flitCountTX = P.interfaceWords
  /-- A word that was not begun starts with a plain flit. -/
  plain : s.ep.flitCountTX = 0 → ∀ d ∈ s.ep.marshaller.head?, Plain d
  /-- Heartbeats are numbered. -/
  numbered : s.ep.heartbeatTX = BitVec.ofNat 5 s.ep.heartbeatsSent.length

namespace Frames

variable {s p : Side (Endpoint P) (Flit P)} {e : Endpoint P} {x : Flit P}

/-- A heartbeat or a credit message goes onto the link between two words. -/
theorem control (h : Frames s p) (hx : x.sent ≠ .data) (hfits : x.fits s.ep.flitCountTX)
    (hm : e.marshaller = s.ep.marshaller) (hc : e.flitCountTX = s.ep.flitCountTX)
    (hn : e.heartbeatTX = BitVec.ofNat 5 e.heartbeatsSent.length) :
    Frames ⟨e, s.link ++ [x]⟩ p where
  numbered := hn
  countRX_lt := h.countRX_lt
  countTX_lt := by
    show e.flitCountTX < _
    rw [hc]
    exact h.countTX_lt
  framed := by
    have hframed := h.framed.concat hfits
    rw [Flit.moves, if_neg hx] at hframed
    show Framed _ _ e.flitCountTX
    rw [hc]
    exact hframed
  marshaller := by
    show e.marshaller = [] ∧ e.flitCountTX = 0 ∨ _
    rw [hm, hc]
    exact h.marshaller
  plain := by
    show e.flitCountTX = 0 → ∀ d ∈ e.marshaller.head?, Plain d
    rw [hm, hc]
    exact h.plain

/-- The marshaller takes a word. -/
theorem load (h : Frames s p) (hnil : s.ep.marshaller = []) {w : Word P}
    (hm : e.marshaller = Marshal.split P.interfaceWords (extend w))
    (hc : e.flitCountTX = s.ep.flitCountTX)
    (hn : e.heartbeatTX = BitVec.ofNat 5 e.heartbeatsSent.length) : Frames ⟨e, s.link⟩ p where
  numbered := hn
  countRX_lt := h.countRX_lt
  countTX_lt := by
    show e.flitCountTX < _
    rw [hc]
    exact h.countTX_lt
  framed := by
    show Framed _ _ e.flitCountTX
    rw [hc]
    exact h.framed
  marshaller := by
    have hzero : s.ep.flitCountTX = 0 := by
      rcases h.marshaller with ⟨_, hzero⟩ | ⟨hne, _⟩
      · exact hzero
      · exact absurd hnil hne
    have hlen : e.marshaller.length = P.interfaceWords := by rw [hm, Marshal.length_split]
    refine Or.inr ⟨fun hempty => ?_, ?_⟩
    · rw [show e.marshaller = [] from hempty, List.length_nil] at hlen
      have := P.interfaceWords_pos
      omega
    · show e.marshaller.length + e.flitCountTX = _
      rw [hlen, hc, hzero, Nat.add_zero]
  plain _ d hd := by
    obtain ⟨rest, hrest⟩ := List.head?_eq_some_iff.mp hd
    exact plain_of_head (hm.symm.trans hrest)

/-- A flit of a word goes onto the link. -/
theorem send (h : Frames s p) {d : Raw P} {rest : List (Raw P)}
    (hd : s.ep.marshaller = d :: rest) (hm : e.marshaller = rest)
    (hc : e.flitCountTX = after (P := P) s.ep.flitCountTX)
    (hn : e.heartbeatTX = BitVec.ofNat 5 e.heartbeatsSent.length) :
    Frames ⟨e, s.link ++ [{ raw := d, sent := .data }]⟩ p := by
  have hlen : rest.length + 1 + s.ep.flitCountTX = P.interfaceWords := by
    rcases h.marshaller with ⟨hnil, _⟩ | ⟨_, hlen⟩
    · rw [hd] at hnil
      cases hnil
    · rwa [hd, List.length_cons] at hlen
  refine ⟨h.countRX_lt, ?_, ?_, ?_, ?_, hn⟩
  · show e.flitCountTX < _
    rw [hc]
    exact after_lt _ h.countTX_lt
  · show Framed _ _ e.flitCountTX
    rw [hc]
    exact h.framed.concat (x := { raw := d, sent := .data }) fun hk => h.plain hk d (by rw [hd]; rfl)
  · show e.marshaller = [] ∧ e.flitCountTX = 0 ∨ e.marshaller ≠ [] ∧
      e.marshaller.length + e.flitCountTX = _
    rw [hm, hc]
    cases rest with
    | nil =>
      rw [List.length_nil] at hlen
      exact Or.inl ⟨rfl, after_last (by omega)⟩
    | cons y rest =>
      rw [List.length_cons] at hlen
      refine Or.inr ⟨by rintro ⟨⟩, ?_⟩
      rw [after_inside (by omega), List.length_cons]
      omega
  · show e.flitCountTX = 0 → ∀ y ∈ e.marshaller.head?, Plain y
    rw [hm, hc]
    intro hzero y hy
    obtain ⟨tail, rfl⟩ := List.head?_eq_some_iff.mp hy
    rw [List.length_cons] at hlen
    rw [after_inside (by omega)] at hzero
    cases hzero

/-- The receiver takes a flit. -/
theorem take {link : List (Flit P)} (h : Frames s p) (hx : s.link = x :: link)
    (hc : e.flitCountRX = x.moves p.ep.flitCountRX) :
    x.fits p.ep.flitCountRX ∧ ∀ l, Frames ⟨s.ep, link⟩ ⟨e, l⟩ := by
  have hframed := h.framed
  rw [hx] at hframed
  cases hframed with
  | cons hfits hrest =>
    refine ⟨hfits, fun l => ⟨?_, h.countTX_lt, ?_, h.marshaller, h.plain, h.numbered⟩⟩
    · show e.flitCountRX < _
      rw [hc, Flit.moves]
      split
      · exact after_lt _ h.countRX_lt
      · exact h.countRX_lt
    · show Framed e.flitCountRX link _
      rw [hc]
      exact hrest

end Frames

end FlowControl

end Aurora

end LeapPlatforms
