import LeapPlatforms.Aurora.FlowControlRuns

/-!
# The handshake of the flow-control driver

From reset the endpoints exchange heartbeats, each numbered and each telling how many the other side
has heard. An endpoint sends words once both counts exceed eight, and receives them once both exceed
six. The counts have five bits, and the link is as long as it likes: an endpoint may have heard that
its peer heard enough, and not have told the peer so itself. The peer discards what comes then.

What the peer needs is one heartbeat that ends its handshake, ahead of the first word. `careful`
says that such a heartbeat was sent.

## Main definitions

* `Sent.announces`, `Endpoint.announced` — the heartbeats that end a peer's handshake
* `careful` — no word is begun before one of them was sent
* `Shakes` — one direction between two endpoints, from reset

## Main results

* `first_word_discarded` — what happens otherwise
* `handshake_ordering` — careful runs lose nothing to the handshake
-/

namespace LeapPlatforms

namespace Aurora

namespace FlowControl

open FifoLink (Side Duplex Move)

variable {P : Params}

/-! ### Heartbeats -/

/-- A heartbeat that ends the handshake for receiving, at a peer that has heard all those before:
the first one is not counted, and the count has five bits. -/
def Sent.announces : Sent → Bool
  | .heartbeat number consecutive => 6 < BitVec.ofNat 5 (number - 1) && 6 < consecutive
  | _ => false

/-- The heartbeats an endpoint has sent. -/
def Endpoint.heartbeats (e : Endpoint P) : List Sent :=
  e.heartbeatsSent.zipIdx.map fun x => .heartbeat x.2 x.1

/-- One of them ends the peer's handshake for receiving. -/
def Endpoint.announced (e : Endpoint P) : Bool := e.heartbeats.any Sent.announces

/-- No word is begun before a heartbeat was sent that ends the peer's handshake for receiving. -/
def careful : Rule P → Endpoint P → Bool
  | .txSend, e => e.flitCountTX != 0 || e.announced
  | _, _ => true

/-- The heartbeats on a link. -/
def heartbeatsOn (l : List (Flit P)) : List Sent :=
  l.filterMap fun x => if x.sent.kind = .heartbeat then some x.sent else none

section Links

variable (l : List (Flit P)) (raw : Raw P)

@[simp] theorem heartbeatsOn_nil : heartbeatsOn ([] : List (Flit P)) = [] := rfl

@[simp] theorem heartbeatsOn_append (l' : List (Flit P)) :
    heartbeatsOn (l ++ l') = heartbeatsOn l ++ heartbeatsOn l' := List.filterMap_append

@[simp] theorem heartbeatsOn_data : heartbeatsOn (⟨raw, .data⟩ :: l) = heartbeatsOn l := rfl

@[simp] theorem heartbeatsOn_credit (value : ℕ) :
    heartbeatsOn (⟨raw, .credit value⟩ :: l) = heartbeatsOn l := rfl

@[simp] theorem heartbeatsOn_heartbeat (i : ℕ) (consecutive : BitVec 5) :
    heartbeatsOn (⟨raw, .heartbeat i consecutive⟩ :: l) =
      .heartbeat i consecutive :: heartbeatsOn l := rfl

end Links

@[simp] theorem length_heartbeats (e : Endpoint P) :
    e.heartbeats.length = e.heartbeatsSent.length := by
  simp [Endpoint.heartbeats]

/-- One more heartbeat. -/
theorem heartbeats_concat {e e' : Endpoint P} {consecutive : BitVec 5}
    (h : e'.heartbeatsSent = e.heartbeatsSent ++ [consecutive]) :
    e'.heartbeats = e.heartbeats ++ [.heartbeat e.heartbeatsSent.length consecutive] := by
  simp [Endpoint.heartbeats, h, List.zipIdx_append]

/-- The heartbeat after the first `k`. -/
theorem drop_heartbeats {e : Endpoint P} {k i : ℕ} {consecutive : BitVec 5} {rest : List Sent}
    (h : e.heartbeats.drop k = .heartbeat i consecutive :: rest) :
    i = k ∧ k < e.heartbeatsSent.length ∧ consecutive ∈ e.heartbeatsSent ∧
      e.heartbeats.drop (k + 1) = rest := by
  have hk : k < e.heartbeats.length := by
    by_contra hge
    rw [List.drop_eq_nil_of_le (by omega)] at h
    cases h
  have hlen : k < e.heartbeatsSent.length := by rwa [length_heartbeats] at hk
  rw [List.drop_eq_getElem_cons hk] at h
  obtain ⟨hhead, htail⟩ := List.cons.inj h
  simp only [Endpoint.heartbeats, List.getElem_map, List.getElem_zipIdx, Nat.zero_add,
    Sent.heartbeat.injEq] at hhead
  obtain ⟨rfl, rfl⟩ := hhead
  exact ⟨rfl, hlen, List.getElem_mem _, htail⟩

/-! ### What a heartbeat carries -/

theorem extractLsb'_control {lo w : ℕ} (h : lo + w ≤ 11) (tag : BitVec 2) (y : BitVec 11) :
    (tag ++ y.setWidth P.widthExtra : Raw P).extractLsb' lo w = y.extractLsb' lo w := by
  have hge := P.widthExtra_ge
  refine BitVec.eq_of_getLsbD_eq fun i hi => ?_
  have hlt : lo + i < P.widthExtra := by omega
  rw [BitVec.getLsbD_extractLsb', BitVec.getLsbD_extractLsb', BitVec.getLsbD_append,
    if_pos hlt, BitVec.getLsbD_setWidth]
  simp [hlt]

theorem number_of_heartbeatWord (done : Bool) (consecutive number : BitVec 5) :
    (heartbeatWord (P := P) done consecutive number).extractLsb' 0 5 = number := by
  rw [heartbeatWord, extractLsb'_control (by decide),
    BitVec.extractLsb'_append_eq_of_add_le (by decide)]
  simp

theorem consecutive_of_heartbeatWord (done : Bool) (consecutive number : BitVec 5) :
    (heartbeatWord (P := P) done consecutive number).extractLsb' 5 5 = consecutive := by
  rw [heartbeatWord, extractLsb'_control (by decide),
    BitVec.extractLsb'_append_eq_of_le (by decide),
    BitVec.extractLsb'_append_eq_of_add_le (by decide)]
  simp

theorem done_of_heartbeatWord (done : Bool) (consecutive number : BitVec 5) :
    (heartbeatWord (P := P) done consecutive number).extractLsb' 10 1 = BitVec.ofBool done := by
  rw [heartbeatWord, extractLsb'_control (by decide),
    BitVec.extractLsb'_append_eq_of_le (by decide), BitVec.extractLsb'_append_eq_of_le (by decide)]
  simp

/-! ### Heartbeats heard -/

/-- The registers of an endpoint that has heard `k` heartbeats, from the first one on. -/
structure Heard (k : ℕ) (heartbeatRX heartbeatConsecutive : BitVec 5) (heartbeatFirst : Bool) :
    Prop where
  /-- The number of the last one. -/
  number : heartbeatRX = BitVec.ofNat 5 (k - 1)
  /-- The first one is not counted: its number is not one more than the register after reset. -/
  consecutive : heartbeatConsecutive = BitVec.ofNat 5 (k - 1)
  /-- Whether any was counted. -/
  first : heartbeatFirst = decide (k ≤ 1)

/-- One more heartbeat. -/
theorem Heard.next {k : ℕ} {e : Endpoint P} {data : Raw P}
    (h : Heard k e.heartbeatRX e.heartbeatConsecutive e.heartbeatFirst)
    (hnumber : data.extractLsb' 0 5 = BitVec.ofNat 5 k)
    (hfirst : k = 1 → data.extractLsb' 10 1 = 0) :
    Heard (k + 1) (e.rxHeartbeat data).heartbeatRX (e.rxHeartbeat data).heartbeatConsecutive
      (e.rxHeartbeat data).heartbeatFirst := by
  have hcounts : (e.heartbeatRX + 1 == data.extractLsb' 0 5 &&
      (!e.heartbeatFirst || data.extractLsb' 10 1 == 0)) = decide (0 < k) := by
    rw [h.number, hnumber, h.first]
    rcases Nat.eq_zero_or_pos k with rfl | hpos
    · rfl
    · rw [show BitVec.ofNat 5 (k - 1) + 1 = BitVec.ofNat 5 (k - 1 + 1) from
        (BitVec.ofNat_add _ _).symm, Nat.sub_add_cancel hpos, decide_eq_true hpos]
      by_cases hone : k = 1
      · simp [hfirst hone]
      · simp [show ¬ k ≤ 1 by omega]
  constructor
  · exact hnumber
  · show (if _ then e.heartbeatConsecutive + 1 else e.heartbeatConsecutive) = _
    rw [hcounts, h.consecutive]
    rcases Nat.eq_zero_or_pos k with rfl | hpos
    · rfl
    · rw [decide_eq_true hpos, if_pos rfl, Nat.add_sub_cancel]
      show BitVec.ofNat 5 (k - 1) + BitVec.ofNat 5 1 = _
      rw [← BitVec.ofNat_add, Nat.sub_add_cancel hpos]
  · show (if _ then false else e.heartbeatFirst) = _
    rw [hcounts, h.first]
    rcases Nat.eq_zero_or_pos k with rfl | hpos
    · rfl
    · rw [decide_eq_true hpos, if_pos rfl]
      exact (decide_eq_false (by omega)).symm

/-- The handshake for receiving ends with a heartbeat that announces it. -/
theorem Heard.ready_iff {i : ℕ} {e : Endpoint P}
    (h : Heard i e.heartbeatRX e.heartbeatConsecutive e.heartbeatFirst) (done : Bool)
    (consecutive : BitVec 5) :
    (e.rxHeartbeat (heartbeatWord done consecutive (BitVec.ofNat 5 i))).handshakeRXDone = true ↔
      e.handshakeRXDone = true ∨ (Sent.heartbeat i consecutive).announces = true := by
  show (if 6 < e.heartbeatConsecutive ∧ 6 < (heartbeatWord (P := P) done consecutive _).extractLsb' 5 5
    then true else e.handshakeRXDone) = true ↔ _
  rw [h.consecutive, consecutive_of_heartbeatWord, Sent.announces, Bool.and_eq_true,
    decide_eq_true_iff, decide_eq_true_iff]
  split
  · next hann => exact ⟨fun _ => Or.inr hann, fun _ => rfl⟩
  · next hann => exact ⟨Or.inl, fun h => h.resolve_right hann⟩

/-! ### Words behind heartbeats -/

/-- Before any word on the link comes a heartbeat that ends the receiver's handshake. -/
def Guarded : List (Flit P) → Prop
  | [] => True
  | x :: l => x.sent.announces = true ∨ (x.sent ≠ .data ∧ Guarded l)

theorem Guarded.concat {l : List (Flit P)} {x : Flit P} (h : Guarded l)
    (hx : x.sent ≠ .data ∨ ∃ y ∈ l, y.sent.announces = true) : Guarded (l ++ [x]) := by
  induction l with
  | nil =>
    rcases hx with hx | ⟨y, hy, _⟩
    · exact Or.inr ⟨hx, trivial⟩
    · cases hy
  | cons z l ih =>
    rcases h with hz | ⟨hz, hl⟩
    · exact Or.inl hz
    · by_cases hann : z.sent.announces = true
      · exact Or.inl hann
      · refine Or.inr ⟨hz, ih hl ?_⟩
        refine hx.imp_right ?_
        rintro ⟨y, hy, hyann⟩
        rcases List.mem_cons.mp hy with rfl | hy
        · exact absurd hyann hann
        · exact ⟨y, hy, hyann⟩

/-! ### One direction -/

/-- What is between two endpoints, from reset on. -/
structure Shakes (s p : Side (Endpoint P) (Flit P)) : Prop extends Frames s p where
  /-- The receiver has heard some heartbeats, and the others are on the link. -/
  heard : ∃ k ≤ s.ep.heartbeatsSent.length,
    Heard k p.ep.heartbeatRX p.ep.heartbeatConsecutive p.ep.heartbeatFirst ∧
    heartbeatsOn s.link = s.ep.heartbeats.drop k
  /-- The first heartbeat that counts is sent before the sender's own handshake is done. -/
  first : ∀ x ∈ s.link, ∀ consecutive, x.sent = .heartbeat 1 consecutive →
    x.raw.extractLsb' 10 1 = 0
  /-- Where the receiver told that it heard more than eight, the sender has sent ten. -/
  told : ∀ consecutive ∈ p.ep.heartbeatsSent, 8 < consecutive → 10 ≤ s.ep.heartbeatsSent.length
  /-- An endpoint that sends words has sent ten heartbeats, and receives words. -/
  started : s.ep.handshakeTXDone = true →
    10 ≤ s.ep.heartbeatsSent.length ∧ s.ep.handshakeRXDone = true
  /-- Before that, it has sent no word. -/
  quiet : s.ep.handshakeTXDone = true ∨ s.ep.marshaller = [] ∧ dataOn s.link = [] ∧
    p.ep.serdesInfifo = [] ∧ p.ep.demarshaller = [] ∧ p.ep.rxCredits = 0
  /-- A credit message goes to an endpoint that has sent words. -/
  credits : creditsOn s.link ≠ [] → p.ep.handshakeRXDone = true
  /-- A word was begun with care. -/
  begun : s.ep.flitCountTX ≠ 0 → s.ep.announced = true
  /-- The heartbeat that ends the receiver's handshake was heard, or is on the link. -/
  announced : s.ep.announced = true →
    p.ep.handshakeRXDone = true ∨ ∃ x ∈ s.link, x.sent.announces = true
  /-- The receiver's handshake is done, or will be before a word comes. -/
  guarded : p.ep.handshakeRXDone = true ∨ Guarded s.link
  /-- The credits to give back are few enough for a credit message. -/
  range : s.ep.rxCredits < creditRange

namespace Shakes

variable {s p : Side (Endpoint P) (Flit P)} {e : Endpoint P} {x : Flit P}

/-- A word or a credit message at the head of the link finds the receiver's handshake done. -/
theorem ready_of_head (h : Shakes s p) {link : List (Flit P)} (hx : s.link = x :: link)
    (hkind : x.sent.kind ≠ .heartbeat) : p.ep.handshakeRXDone = true := by
  have hguarded := h.guarded
  have hcredits := h.credits
  rw [hx] at hguarded hcredits
  obtain ⟨raw, sent⟩ := x
  cases sent with
  | heartbeat i consecutive => exact absurd rfl hkind
  | credit value => exact hcredits (by simp)
  | data =>
    rcases hguarded with hready | hann | ⟨hne, _⟩
    · exact hready
    · cases hann
    · exact absurd rfl hne

/-! ### The sending endpoint moves -/

/-- A flit other than a heartbeat goes onto the link. -/
theorem sendOther (h : Shakes s p) (hframes : Frames ⟨e, s.link ++ [x]⟩ p)
    (hkind : x.sent.kind ≠ .heartbeat) (hsent : e.heartbeatsSent = s.ep.heartbeatsSent)
    (hrx : e.handshakeRXDone = s.ep.handshakeRXDone)
    (htx : e.handshakeTXDone = s.ep.handshakeTXDone)
    (hquiet : s.ep.handshakeTXDone = true ∨ e.marshaller = s.ep.marshaller ∧ dataOn [x] = [])
    (hcredit : creditsOn [x] ≠ [] → p.ep.handshakeRXDone = true)
    (hdata : x.sent = .data → s.ep.announced = true)
    (hbegun : e.flitCountTX ≠ 0 → s.ep.announced = true)
    (hrange : e.rxCredits < creditRange) : Shakes ⟨e, s.link ++ [x]⟩ p := by
  have hhb : e.heartbeats = s.ep.heartbeats := by rw [Endpoint.heartbeats, hsent, Endpoint.heartbeats]
  have hann : e.announced = s.ep.announced := by rw [Endpoint.announced, hhb, Endpoint.announced]
  constructor
  case toFrames => exact hframes
  case heard =>
    obtain ⟨k, hk, hheard, hlink⟩ := h.heard
    refine ⟨k, hsent ▸ hk, hheard, ?_⟩
    have hnil : heartbeatsOn [x] = [] := by simp [heartbeatsOn, hkind]
    rw [heartbeatsOn_append, hnil, List.append_nil, hlink, hhb]
  case first =>
    intro y hy consecutive hyx
    rcases List.mem_append.mp hy with hy | hy
    · exact h.first y hy consecutive hyx
    · rw [List.mem_singleton.mp hy] at hyx
      rw [hyx] at hkind
      exact absurd rfl hkind
  case told =>
    intro consecutive hc
    rw [show Side.ep ⟨e, _⟩ = e from rfl, hsent]
    exact h.told consecutive hc
  case started =>
    rw [show Side.ep ⟨e, _⟩ = e from rfl, hsent, hrx, htx]
    exact h.started
  case quiet =>
    rw [show Side.ep ⟨e, _⟩ = e from rfl, htx]
    rcases h.quiet with hdone | ⟨hm, hdata, hrest⟩
    · exact Or.inl hdone
    · refine hquiet.imp_right ?_
      rintro ⟨hsame, hnil⟩
      refine ⟨hsame.trans hm, ?_, hrest⟩
      rw [dataOn_append, hdata, hnil, List.append_nil]
  case credits =>
    rw [creditsOn_append]
    intro hne
    by_cases hlink : creditsOn s.link = []
    · exact hcredit (by rwa [hlink, List.nil_append] at hne)
    · exact h.credits hlink
  case begun =>
    rw [show Side.ep ⟨e, _⟩ = e from rfl, hann]
    exact hbegun
  case announced =>
    rw [show Side.ep ⟨e, _⟩ = e from rfl, hann]
    intro ha
    refine (h.announced ha).imp_right ?_
    rintro ⟨y, hy, hyann⟩
    exact ⟨y, List.mem_append_left _ hy, hyann⟩
  case guarded =>
    by_cases hd : x.sent = .data
    · rcases h.announced (hdata hd) with hready | hex
      · exact Or.inl hready
      · exact h.guarded.imp_right fun hg => hg.concat (Or.inr hex)
    · exact h.guarded.imp_right fun hg => hg.concat (Or.inl hd)
  case range => exact hrange

theorem sendTxHeartbeat (h : Shakes s p) {f : Flit P} (ht : s.ep.txHeartbeat = some (e, f)) :
    Shakes ⟨e, s.link ++ [f]⟩ p := by
  rw [Endpoint.txHeartbeat] at ht
  split at ht
  · next hc =>
    obtain ⟨rfl, rfl⟩ := Prod.mk.inj (Option.some.inj ht)
    have hnumber : s.ep.heartbeatTX + 1 =
        BitVec.ofNat 5 (s.ep.heartbeatsSent ++ [s.ep.heartbeatConsecutive]).length := by
      rw [h.numbered, List.length_append, List.length_singleton, BitVec.ofNat_add]
      rfl
    have hhb : ({ s.ep with
        heartbeatTX := s.ep.heartbeatTX + 1
        heartbeatsSent := s.ep.heartbeatsSent ++ [s.ep.heartbeatConsecutive] } :
          Endpoint P).heartbeats = s.ep.heartbeats ++
            [.heartbeat s.ep.heartbeatsSent.length s.ep.heartbeatConsecutive] :=
      heartbeats_concat rfl
    have hlen : (s.ep.heartbeatsSent ++ [s.ep.heartbeatConsecutive]).length =
        s.ep.heartbeatsSent.length + 1 := by simp
    refine { h with
      toFrames := h.toFrames.control (by rintro ⟨⟩) ⟨hc.2.2, _, by rw [h.numbered]⟩ rfl rfl hnumber
      heard := ?_, first := ?_, told := ?_, started := ?_, quiet := ?_, credits := ?_
      begun := ?_, announced := ?_, guarded := ?_ }
    · obtain ⟨k, hk, hheard, hlink⟩ := h.heard
      refine ⟨k, by rw [hlen]; omega, hheard, ?_⟩
      rw [hhb, List.drop_append_of_le_length (by rwa [length_heartbeats]), heartbeatsOn_append,
        hlink]
      rfl
    · intro y hy consecutive hyx
      rcases List.mem_append.mp hy with hy | hy
      · exact h.first y hy consecutive hyx
      · obtain rfl := List.mem_singleton.mp hy
        -- the sender has not sent ten heartbeats
        have hone : s.ep.heartbeatsSent.length = 1 := (Sent.heartbeat.inj hyx).1
        have hdone : s.ep.handshakeTXDone = false := by
          by_contra hne
          have := (h.started (by simpa using hne)).1
          omega
        show (heartbeatWord s.ep.handshakeTXDone _ _).extractLsb' 10 1 = 0
        rw [done_of_heartbeatWord, hdone]
        rfl
    · intro consecutive hc' hlt
      have := h.told consecutive hc' hlt
      rw [hlen]
      omega
    · intro hdone
      obtain ⟨hten, hready⟩ := h.started hdone
      exact ⟨by rw [hlen]; omega, hready⟩
    · simpa using h.quiet
    · simpa using h.credits
    · intro hne
      have := h.begun hne
      rw [Endpoint.announced] at this ⊢
      rw [hhb, List.any_append, this, Bool.true_or]
    · intro hann
      rw [Endpoint.announced, hhb, List.any_append, Bool.or_eq_true] at hann
      rcases hann with hann | hann
      · refine (h.announced hann).imp_right ?_
        rintro ⟨y, hy, hyann⟩
        exact ⟨y, List.mem_append_left _ hy, hyann⟩
      · refine Or.inr ⟨_, List.mem_append_right _ (List.mem_singleton.mpr rfl), ?_⟩
        simpa using hann
    · exact h.guarded.imp_right fun hg => hg.concat (Or.inl (by rintro ⟨⟩))
  · cases ht

theorem sendTxFC (h : Shakes s p) (hback : Shakes p s) {f : Flit P}
    (ht : s.ep.txFC = some (e, f)) : Shakes ⟨e, s.link ++ [f]⟩ p := by
  rw [Endpoint.txFC] at ht
  split at ht
  · next hc =>
    obtain ⟨rfl, rfl⟩ := Prod.mk.inj (Option.some.inj ht)
    -- the credits come from words that the receiver sent
    have hready : p.ep.handshakeRXDone = true := by
      rcases hback.quiet with hdone | ⟨_, _, _, _, hzero⟩
      · exact (hback.started hdone).2
      · rw [hzero] at hc
        exact absurd hc.2 (by simp)
    exact h.sendOther
      (h.toFrames.control (by rintro ⟨⟩) ⟨hc.1, rfl, h.range⟩ rfl rfl h.numbered) (by rintro ⟨⟩)
      rfl rfl rfl (Or.inr ⟨rfl, rfl⟩) (fun _ => hready) (by rintro ⟨⟩) h.begun
      (Nat.pow_pos (Nat.succ_pos _))
  · cases ht

theorem sendTxSend (h : Shakes s p) {f : Flit P} (hok : careful (P := P) .txSend s.ep = true)
    (ht : s.ep.txSend = some (e, f)) : Shakes ⟨e, s.link ++ [f]⟩ p := by
  have hann : s.ep.announced = true := by
    by_cases hzero : s.ep.flitCountTX = 0
    · simpa [careful, hzero] using hok
    · exact h.begun hzero
  rw [Endpoint.txSend] at ht
  split at ht
  · cases ht
  · next d rest hd =>
    split at ht
    · next hdone =>
      obtain ⟨rfl, rfl⟩ := Prod.mk.inj (Option.some.inj ht)
      exact h.sendOther (h.toFrames.send hd rfl rfl h.numbered) (by rintro ⟨⟩) rfl rfl rfl
        (Or.inl hdone) (fun hne => absurd rfl hne) (fun _ => hann) (fun _ => hann) h.range
    · cases ht

theorem sendTxData (h : Shakes s p) (ht : s.ep.txData = some e) : Shakes ⟨e, s.link⟩ p := by
  rw [Endpoint.txData] at ht
  split at ht
  · next hw hm =>
    split at ht
    · next hc =>
      obtain rfl := Option.some.inj ht
      exact { h with
        toFrames := h.toFrames.load hm rfl rfl h.numbered
        quiet := Or.inl hc.1 }
    · cases ht
  · cases ht

/-- **Every rule of the sending endpoint**, fired with care. -/
theorem sendRule (h : Shakes s p) (hback : Shakes p s) {r : Rule P} {out : Option (Flit P)}
    (hok : careful r s.ep = true) (hr : rule r s.ep = some (e, out)) :
    Shakes ⟨e, s.link ++ out.toList⟩ p := by
  cases r <;> first
    | obtain ⟨rfl, rfl⟩ := Prod.mk.inj (Option.some.inj hr)
    | obtain ⟨_, ht, heq⟩ := Option.map_eq_some_iff.mp hr
      obtain ⟨rfl, rfl⟩ := Prod.mk.inj heq
  case write =>
    rw [Option.toList_none, List.append_nil]
    rw [Endpoint.write] at ht
    split at ht
    · obtain rfl := Option.some.inj ht
      exact { h with }
    · cases ht
  case tickCC =>
    rw [Option.toList_none, List.append_nil]
    rw [Endpoint.tickCC] at ht
    split at ht
    · obtain rfl := Option.some.inj ht
      exact { h with }
    · cases ht
  case beat =>
    rw [Option.toList_none, List.append_nil]
    exact { h with }
  case txHeartbeat => exact h.sendTxHeartbeat ht
  case txFC => exact h.sendTxFC hback ht
  case txData =>
    rw [Option.toList_none, List.append_nil]
    exact h.sendTxData ht
  case txSend => exact h.sendTxSend hok ht
  case updateCredit =>
    rw [Option.toList_none, List.append_nil]
    rw [Endpoint.updateCredit] at ht
    split at ht
    · cases ht
    · obtain rfl := Option.some.inj ht
      exact { h with }
  case rxDemarsh =>
    rw [Option.toList_none, List.append_nil]
    rw [Endpoint.rxDemarsh] at ht
    split at ht
    · cases ht
    · split at ht
      · obtain rfl := Option.some.inj ht
        exact { h with }
      · cases ht
  case rxDone =>
    rw [Option.toList_none, List.append_nil]
    rw [Endpoint.rxDone] at ht
    split at ht
    · obtain rfl := Option.some.inj ht
      exact { h with range := Nat.mod_lt _ (Nat.pow_pos (Nat.succ_pos _)) }
    · cases ht
  case deq =>
    rw [Option.toList_none, List.append_nil]
    rw [Endpoint.deq] at ht
    split at ht
    · cases ht
    · obtain rfl := Option.some.inj ht
      exact { h with }

/-- The sending endpoint takes a flit from the peer's link. -/
theorem sendIntake (h : Shakes s p) (hback : Shakes p s) {link : List (Flit P)}
    (hx : p.link = x :: link) (ht : s.ep.rxIntake x.raw = some e) :
    Shakes ⟨e, s.link⟩ ⟨p.ep, link⟩ := by
  have hfits := Flows.fits_head hback.toFrames hx
  obtain ⟨raw, sent⟩ := x
  rcases rxIntake_cases hfits (hback.ready_of_head hx) ht with
    ⟨i, consecutive, hs, rfl⟩ | ⟨value, hs, rfl⟩ | ⟨hs, rfl⟩
  · obtain rfl : sent = _ := hs
    obtain ⟨_, done, hraw⟩ := hfits
    obtain rfl : raw = _ := hraw
    obtain ⟨k, _, _, hlink⟩ := hback.heard
    rw [hx, heartbeatsOn_heartbeat] at hlink
    have hmem := (drop_heartbeats hlink.symm).2.2.1
    -- the registers change in the handshake only
    refine { h with started := ?_, quiet := ?_ }
    · show (if _ then true else s.ep.handshakeTXDone) = true → _ ∧
        (if _ then true else s.ep.handshakeRXDone) = true
      rw [consecutive_of_heartbeatWord]
      intro hdone
      split at hdone
      · next hmore =>
        refine ⟨h.told consecutive hmem hmore.2, if_pos ⟨?_, ?_⟩⟩
        · exact BitVec.lt_trans (by decide) hmore.1
        · exact BitVec.lt_trans (by decide) hmore.2
      · obtain ⟨hten, hready⟩ := h.started hdone
        refine ⟨hten, ?_⟩
        rw [hready]
        split <;> rfl
    · show (if _ then true else s.ep.handshakeTXDone) = true ∨ _
      rcases h.quiet with hdone | hquiet
      · rw [hdone]
        exact Or.inl (by split <;> rfl)
      · exact Or.inr hquiet
  · exact { h with }
  · exact { h with }

/-- **Every careful move of the sending endpoint.** -/
theorem send {s' p' : Side (Endpoint P) (Flit P)} (h : Shakes s p) (hback : Shakes p s)
    (hmove : Move ((machine P).restrict careful) s p s' p') : Shakes s' p' := by
  cases hmove with
  | rule r ep out hr =>
    obtain ⟨hok, hr⟩ : careful r s.ep = true ∧ rule r s.ep = some (ep, out) := by
      simpa [FifoLink.Machine.restrict, machine] using hr
    exact h.sendRule hback hok hr
  | intake x link ep hx ht => exact h.sendIntake hback hx ht

/-! ### The receiving endpoint moves -/

theorem recvTxHeartbeat (h : Shakes s p) {f : Flit P} (ht : p.ep.txHeartbeat = some (e, f))
    (l : List (Flit P)) : Shakes s ⟨e, l⟩ := by
  rw [Endpoint.txHeartbeat] at ht
  split at ht
  · obtain ⟨rfl, rfl⟩ := Prod.mk.inj (Option.some.inj ht)
    refine { h with told := ?_ }
    intro consecutive hc hlt
    rcases List.mem_append.mp hc with hc | hc
    · exact h.told consecutive hc hlt
    · -- the receiver tells what it heard
      obtain ⟨k, hk, hheard, _⟩ := h.heard
      rw [List.mem_singleton.mp hc, hheard.consecutive] at hlt
      by_contra hten
      have hsmall : k - 1 ≤ 8 := by omega
      have : (BitVec.ofNat 5 (k - 1)).toNat = k - 1 := by
        rw [BitVec.toNat_ofNat, Nat.mod_eq_of_lt (by omega)]
      have hlt' : 8 < (BitVec.ofNat 5 (k - 1)).toNat := hlt
      omega
  · cases ht

theorem recvTxFC (h : Shakes s p) {f : Flit P} (ht : p.ep.txFC = some (e, f))
    (l : List (Flit P)) : Shakes s ⟨e, l⟩ := by
  rw [Endpoint.txFC] at ht
  split at ht
  · obtain ⟨rfl, rfl⟩ := Prod.mk.inj (Option.some.inj ht)
    refine { h with quiet := h.quiet.imp_right ?_ }
    rintro ⟨hm, hdata, hin, hdem, _⟩
    exact ⟨hm, hdata, hin, hdem, rfl⟩
  · cases ht

theorem recvTxSend (h : Shakes s p) {f : Flit P} (ht : p.ep.txSend = some (e, f))
    (l : List (Flit P)) : Shakes s ⟨e, l⟩ := by
  rw [Endpoint.txSend] at ht
  split at ht
  · cases ht
  · split at ht
    · obtain ⟨rfl, rfl⟩ := Prod.mk.inj (Option.some.inj ht)
      exact { h with }
    · cases ht

theorem recvRxDemarsh (h : Shakes s p) (ht : p.ep.rxDemarsh = some e) (l : List (Flit P)) :
    Shakes s ⟨e, l⟩ := by
  rw [Endpoint.rxDemarsh] at ht
  split at ht
  · cases ht
  · next d rest hd =>
    split at ht
    · obtain rfl := Option.some.inj ht
      refine { h with quiet := Or.inl ?_ }
      rcases h.quiet with hdone | ⟨_, _, hnil, _⟩
      · exact hdone
      · rw [hd] at hnil
        cases hnil
    · cases ht

theorem recvRxDone (h : Shakes s p) (ht : p.ep.rxDone = some e) (l : List (Flit P)) :
    Shakes s ⟨e, l⟩ := by
  rw [Endpoint.rxDone] at ht
  split at ht
  · next hc =>
    obtain rfl := Option.some.inj ht
    refine { h with quiet := Or.inl ?_ }
    rcases h.quiet with hdone | ⟨_, _, _, hnil, _⟩
    · exact hdone
    · have hpos := P.interfaceWords_pos
      rw [hnil, List.length_nil] at hc
      omega
  · cases ht

/-- **Every rule of the receiving endpoint.** -/
theorem recvRule (h : Shakes s p) {r : Rule P} {out : Option (Flit P)}
    (hr : rule r p.ep = some (e, out)) (l : List (Flit P)) : Shakes s ⟨e, l⟩ := by
  cases r <;> first
    | obtain ⟨rfl, rfl⟩ := Prod.mk.inj (Option.some.inj hr)
    | obtain ⟨_, ht, heq⟩ := Option.map_eq_some_iff.mp hr
      obtain ⟨rfl, rfl⟩ := Prod.mk.inj heq
  case write =>
    rw [Endpoint.write] at ht
    split at ht
    · obtain rfl := Option.some.inj ht
      exact { h with }
    · cases ht
  case tickCC =>
    rw [Endpoint.tickCC] at ht
    split at ht
    · obtain rfl := Option.some.inj ht
      exact { h with }
    · cases ht
  case beat => exact { h with }
  case txHeartbeat => exact h.recvTxHeartbeat ht l
  case txFC => exact h.recvTxFC ht l
  case txData =>
    rw [Endpoint.txData] at ht
    split at ht
    · split at ht
      · obtain rfl := Option.some.inj ht
        exact { h with }
      · cases ht
    · cases ht
  case txSend => exact h.recvTxSend ht l
  case updateCredit =>
    rw [Endpoint.updateCredit] at ht
    split at ht
    · cases ht
    · obtain rfl := Option.some.inj ht
      exact { h with }
  case rxDemarsh => exact h.recvRxDemarsh ht l
  case rxDone => exact h.recvRxDone ht l
  case deq =>
    rw [Endpoint.deq] at ht
    split at ht
    · cases ht
    · obtain rfl := Option.some.inj ht
      exact { h with }

/-- The receiving endpoint takes a heartbeat. -/
theorem recvHeartbeat (h : Shakes s p) {link : List (Flit P)} {raw : Raw P} {i : ℕ}
    {consecutive : BitVec 5} (hx : s.link = ⟨raw, .heartbeat i consecutive⟩ :: link) :
    Shakes ⟨s.ep, link⟩ ⟨p.ep.rxHeartbeat raw, p.link⟩ := by
  obtain ⟨k, hk, hheard, hlink⟩ := h.heard
  rw [hx, heartbeatsOn_heartbeat] at hlink
  obtain ⟨hik, hlt, _, hrest⟩ := drop_heartbeats hlink.symm
  obtain rfl : i = k := hik
  obtain ⟨_, done, hraw⟩ := Flows.fits_head h.toFrames hx
  have hmem : (⟨raw, .heartbeat i consecutive⟩ : Flit P) ∈ s.link := by rw [hx]; simp
  have hready : (p.ep.rxHeartbeat raw).handshakeRXDone = true ↔
      p.ep.handshakeRXDone = true ∨ (Sent.heartbeat i consecutive).announces = true := by
    rw [show raw = _ from hraw]
    exact hheard.ready_iff (e := p.ep) done consecutive
  have hnumber : raw.extractLsb' 0 5 = BitVec.ofNat 5 i := by
    rw [show raw = _ from hraw, number_of_heartbeatWord]
  have hfirst : i = 1 → raw.extractLsb' 10 1 = 0 := by
    rintro rfl
    have hbit := h.first _ hmem consecutive rfl
    exact hbit
  have hnext := hheard.next (e := p.ep) hnumber hfirst
  refine { (h.toFrames.take hx rfl).2 p.link with
    heard := ?_, first := ?_, told := h.told, started := h.started, quiet := ?_, credits := ?_
    begun := h.begun, announced := ?_, guarded := ?_, range := h.range }
  · exact ⟨i + 1, hlt, hnext, hrest.symm⟩
  · intro y hy
    exact h.first y (by rw [hx]; exact List.mem_cons_of_mem _ hy)
  · have hquiet := h.quiet
    rw [hx] at hquiet
    exact hquiet
  · have hcredits := h.credits
    rw [hx] at hcredits
    exact fun hne => hready.mpr (Or.inl (hcredits hne))
  · intro hann
    rcases h.announced hann with hdone | ⟨y, hy, hyann⟩
    · exact Or.inl (hready.mpr (Or.inl hdone))
    · rw [hx] at hy
      rcases List.mem_cons.mp hy with rfl | hy
      · exact Or.inl (hready.mpr (Or.inr hyann))
      · exact Or.inr ⟨y, hy, hyann⟩
  · have hguarded := h.guarded
    rw [hx] at hguarded
    rcases hguarded with hdone | hann | ⟨_, hrest⟩
    · exact Or.inl (hready.mpr (Or.inl hdone))
    · exact Or.inl (hready.mpr (Or.inr hann))
    · exact Or.inr hrest

/-- The receiving endpoint takes a flit from the link. -/
theorem recvIntake (h : Shakes s p) {link : List (Flit P)} (hx : s.link = x :: link)
    (ht : p.ep.rxIntake x.raw = some e) : Shakes ⟨s.ep, link⟩ ⟨e, p.link⟩ := by
  have hready := h.ready_of_head hx
  obtain ⟨k, hk, hheard, hlink⟩ := h.heard
  have hfirst := h.first
  have hquiet := h.quiet
  rw [hx] at hlink hfirst hquiet
  obtain ⟨raw, sent⟩ := x
  rcases rxIntake_cases (Flows.fits_head h.toFrames hx) hready ht with
    ⟨i, consecutive, hs, rfl⟩ | ⟨value, hs, rfl⟩ | ⟨hs, rfl⟩
  · obtain rfl : sent = _ := hs
    exact h.recvHeartbeat hx
  · obtain rfl : sent = _ := hs
    have hdone := hready (by rintro ⟨⟩)
    exact { (h.toFrames.take hx rfl).2 p.link with
      heard := ⟨k, hk, hheard, hlink⟩
      first := fun y hy => hfirst y (List.mem_cons_of_mem _ hy)
      told := h.told, started := h.started, quiet := hquiet, credits := fun _ => hdone
      begun := h.begun, announced := fun _ => Or.inl hdone, guarded := Or.inl hdone
      range := h.range }
  · obtain rfl : sent = _ := hs
    have hdone := hready (by rintro ⟨⟩)
    exact { (h.toFrames.take hx rfl).2 p.link with
      heard := ⟨k, hk, hheard, hlink⟩
      first := fun y hy => hfirst y (List.mem_cons_of_mem _ hy)
      told := h.told, started := h.started
      quiet := hquiet.imp_right fun hnone => absurd hnone.2.1 (by simp)
      credits := fun _ => hdone
      begun := h.begun, announced := fun _ => Or.inl hdone, guarded := Or.inl hdone
      range := h.range }

/-- **Every careful move of the receiving endpoint.** -/
theorem recv {s' p' : Side (Endpoint P) (Flit P)} (h : Shakes s p)
    (hmove : Move ((machine P).restrict careful) p s p' s') : Shakes s' p' := by
  cases hmove with
  | rule r ep out hr =>
    obtain ⟨_, hr⟩ : careful r p.ep = true ∧ rule r p.ep = some (ep, out) := by
      simpa [FifoLink.Machine.restrict, machine] using hr
    exact h.recvRule hr _
  | intake x link ep hx ht => exact h.recvIntake hx ht

end Shakes

/-! ### Runs from reset -/

/-- Two endpoints after reset. -/
def resetPair (P : Params) : Duplex (Endpoint P) (Flit P) where
  a := { ep := .reset P, link := [] }
  b := { ep := .reset P, link := [] }

/-- The runs of a machine from reset. -/
def fromReset (M : FifoLink.Machine (Endpoint P) (Rule P) (Flit P)) :
    TransitionSystem (Duplex (Endpoint P) (Flit P)) :=
  FifoLink.system M (· = resetPair P)

theorem shakes_reset :
    Shakes (P := P) { ep := .reset P, link := [] } { ep := .reset P, link := [] } where
  countRX_lt := P.interfaceWords_pos
  countTX_lt := P.interfaceWords_pos
  framed := .nil 0
  marshaller := Or.inl ⟨rfl, rfl⟩
  plain _ d hd := by cases hd
  numbered := rfl
  heard := ⟨0, Nat.zero_le _, ⟨rfl, rfl, rfl⟩, rfl⟩
  first := by simp
  told := by simp [Endpoint.reset]
  started := by simp [Endpoint.reset]
  quiet := Or.inr ⟨rfl, rfl, rfl, rfl, rfl⟩
  credits hne := absurd rfl hne
  begun hne := absurd rfl hne
  announced hann := by cases hann
  guarded := Or.inr trivial
  range := Nat.pow_pos (Nat.succ_pos _)

theorem shakes_of_reachable {d : Duplex (Endpoint P) (Flit P)}
    (h : (fromReset ((machine P).restrict careful)).Reachable d) :
    Shakes d.a d.b ∧ Shakes d.b d.a := by
  refine FifoLink.directed (D := Shakes) ?_ ?_ ?_ h
  · rintro d rfl
    exact ⟨shakes_reset, shakes_reset⟩
  · intro s p s' p' hsp hps hmove
    exact hsp.send hps hmove
  · intro s p s' p' hsp _ hmove
    exact hsp.recv hmove

/-- What becomes of the next flit from `s` if it is not a heartbeat. -/
def Ordered (s p : Side (Endpoint P) (Flit P)) : Prop :=
  ∀ x, s.link.head? = some x → x.sent.kind ≠ .heartbeat →
    p.ep.handshakeRXDone = true ∧ p.ep.classify x.raw = x.sent.kind

theorem ordered_of_shakes {s p : Side (Endpoint P) (Flit P)} (h : Shakes s p) : Ordered s p := by
  intro x hx hkind
  obtain ⟨link, hlink⟩ := List.head?_eq_some_iff.mp hx
  exact ⟨h.ready_of_head hlink hkind, classify_of_fits (Flows.fits_head h.toFrames hlink)⟩

/-! ### A run that loses a word -/

/-- Both endpoints after clock compensation. -/
def compensated (d : Duplex (Endpoint P) (Flit P)) : Duplex (Endpoint P) (Flit P) where
  a := { d.a with ep := { d.a.ep with ccCycles := 0 } }
  b := { d.b with ep := { d.b.ep with ccCycles := 0 } }

/-- Clock compensation takes its time, and changes nothing else. -/
theorem compensated_reachable {M : FifoLink.Machine (Endpoint P) (Rule P) (Flit P)}
    (hM : ∀ e, M.rule .tickCC e = e.tickCC.map (·, none)) :
    (fromReset M).Reachable (compensated (resetPair P)) := by
  have htick : ∀ n (s : Side (Endpoint P) (Flit P)), n + 1 = s.ep.ccCycles →
      M.rule .tickCC s.ep = some ({ s.ep with ccCycles := n }, none) := by
    intro n s hn
    rw [hM, Endpoint.tickCC, if_pos (by omega), ← hn]
    rfl
  have ha : ∀ n ≤ 2 ^ 10 - 1, (fromReset M).Reachable
      { resetPair P with a := { ep := { Endpoint.reset P with ccCycles := n }, link := [] } } := by
    intro n hn
    induction hn using Nat.decreasingInduction with
    | self => exact .init rfl
    | of_succ n _ ih => exact ih.step (Or.inl (.rule _ _ .tickCC _ none (htick n _ rfl)))
  have hb : ∀ n ≤ 2 ^ 10 - 1, (fromReset M).Reachable
      { a := { ep := { Endpoint.reset P with ccCycles := 0 }, link := [] }
        b := { ep := { Endpoint.reset P with ccCycles := n }, link := [] } } := by
    intro n hn
    induction hn using Nat.decreasingInduction with
    | self => exact ha 0 (Nat.zero_le _)
    | of_succ n _ ih => exact ih.step (Or.inr (.rule _ _ .tickCC _ none (htick n _ rfl)))
  exact hb 0 (Nat.zero_le _)

/-- One period of the heartbeats: each endpoint sends one, the second hears the first's at once, and
the first hears the second's of `delay` periods before. In a period both also count 2048 beats,
which leaves them as they are. -/
def period (delay i : ℕ) : List (Bool × FifoLink.Turn (Rule sampleParams)) :=
  [(true, .rule .txHeartbeat), (false, .intake), (false, .rule .txHeartbeat)] ++
    if i < delay then [] else [(true, .intake)]

/-- Periods with a link of `delay` periods from the second endpoint, then a word from the first. -/
def handshakeTurns (delay periods : ℕ) : List (Bool × FifoLink.Turn (Rule sampleParams)) :=
  (List.range periods).flatMap (period delay) ++
    [(true, .rule (.write 5)), (true, .rule .txData), (true, .rule .txSend)]

/-- The link takes 25 periods: when the first endpoint has heard enough, the count of the second has
just started again from zero. -/
theorem handshakeTurns_late : ((FifoLink.run (machine sampleParams) (handshakeTurns 25 36)
    (compensated (resetPair sampleParams))).map fun d =>
      (d.a.link.map fun x => (x.raw, x.sent), d.b.ep.handshakeRXDone, d.b.ep.flitCountRX)) =
        some ([(0, .data)], false, 0) := by
  decide +kernel

/-- **The first word is discarded.** Both endpoints are reset, one direction of the link takes 25
periods of the heartbeats. The first endpoint's handshake ends, and the word that it sends comes to
an endpoint whose handshake has not. -/
theorem first_word_discarded : ∃ d : Duplex (Endpoint sampleParams) (Flit sampleParams),
    (fromReset (machine sampleParams)).Reachable d ∧
      ∃ x, d.a.link = [x] ∧ x.sent = .data ∧ d.b.ep.handshakeRXDone = false ∧
        d.b.ep.rxIntake x.raw = some d.b.ep ∧ ¬ Ordered d.a d.b := by
  obtain ⟨d, hrun, hd⟩ := Option.map_eq_some_iff.mp handshakeTurns_late
  obtain ⟨hlink, hready, hcount⟩ : d.a.link.map (fun x => (x.raw, x.sent)) = [(0, .data)] ∧
      d.b.ep.handshakeRXDone = false ∧ d.b.ep.flitCountRX = 0 := by
    simpa only [Prod.mk.injEq] using hd
  obtain ⟨x, hx, hpair⟩ := List.map_eq_singleton_iff.mp hlink
  obtain ⟨hraw, hsent⟩ := Prod.mk.inj hpair
  refine ⟨d, FifoLink.run_reachable (compensated_reachable fun _ => rfl) hrun, x, hx, hsent, hready,
    ?_, fun hall => ?_⟩
  · rw [Endpoint.rxIntake, if_pos hcount, hraw, if_neg (by decide +kernel),
      if_neg (by decide +kernel), if_neg (by rw [hready]; decide)]
  · have hdone := (hall x (by rw [hx]; rfl) (by rw [hsent]; rintro ⟨⟩)).1
    rw [hready] at hdone
    cases hdone

/-- **Handshake ordering.** In every run from reset in which no word is begun before a heartbeat was
sent that ends the peer's handshake, no word and no credit message meets a receiver whose handshake
is not done, and each is taken for what it is. -/
theorem handshake_ordering (P : Params) (d : Duplex (Endpoint P) (Flit P))
    (h : (fromReset ((machine P).restrict careful)).Reachable d) :
    Ordered d.a d.b ∧ Ordered d.b d.a := by
  have hshakes := shakes_of_reachable h
  exact ⟨ordered_of_shakes hshakes.1, ordered_of_shakes hshakes.2⟩

theorem handshake_ordering_sample : ∃ d : Duplex (Endpoint sampleParams) (Flit sampleParams),
    (fromReset ((machine sampleParams).restrict careful)).Reachable d ∧
      (∃ x ∈ d.a.link, x.sent = .data) ∧ Ordered d.a d.b ∧ Ordered d.b d.a := by
  have hrun : ((FifoLink.run ((machine sampleParams).restrict careful) (handshakeTurns 0 12)
      (compensated (resetPair sampleParams))).map fun d => d.a.link.map Flit.sent) =
        some [.data] := by
    decide +kernel
  obtain ⟨d, hd, hsent⟩ := Option.map_eq_some_iff.mp hrun
  obtain ⟨x, hx, hdata⟩ := List.map_eq_singleton_iff.mp hsent
  have hreach := FifoLink.run_reachable (compensated_reachable fun _ => rfl) hd
  exact ⟨d, hreach, ⟨x, by rw [hx]; simp, hdata⟩, handshake_ordering sampleParams d hreach⟩

end FlowControl

end Aurora

end LeapPlatforms
