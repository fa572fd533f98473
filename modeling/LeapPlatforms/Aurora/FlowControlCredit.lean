import LeapPlatforms.Aurora.FlowControlFraming

/-!
# Credits and words on the link of the flow-control driver

Every word is in one of four places or with the user, and every credit in one of four: what `txData`
spends, `rxDone` gives back. Words are counted in flits, `interface_words` of them each, because a
word may be in all four places at once.

## Main definitions

* `dataOn`, `creditsOn` — what is on a link
* `creditsHeld`, `flitsHeld` — where the credits are
* `Flows` — one direction between two endpoints

## Main results

* `Flows.send`, `Flows.recv` — every move of either endpoint keeps it
* `Flows.outstanding` — one credit message at most
* `Flows.intake_isSome` — the receiver can always take the next flit
-/

namespace LeapPlatforms

namespace Aurora

namespace FlowControl

open FifoLink (Side Duplex Move)

variable {P : Params}

/-! ### What is on a link -/

/-- The flits of words on a link. -/
def dataOn (l : List (Flit P)) : List (Raw P) :=
  l.filterMap fun x => if x.sent = .data then some x.raw else none

/-- The credit values on a link. -/
def creditsOn (l : List (Flit P)) : List ℕ :=
  l.filterMap fun x =>
    match x.sent with
    | .credit value => some value
    | _ => none

section Links

variable (l : List (Flit P)) (raw : Raw P)

@[simp] theorem dataOn_nil : dataOn ([] : List (Flit P)) = [] := rfl

@[simp] theorem dataOn_append (l' : List (Flit P)) : dataOn (l ++ l') = dataOn l ++ dataOn l' :=
  List.filterMap_append

@[simp] theorem dataOn_data : dataOn (⟨raw, .data⟩ :: l) = raw :: dataOn l := rfl

@[simp] theorem dataOn_credit (value : ℕ) : dataOn (⟨raw, .credit value⟩ :: l) = dataOn l := rfl

@[simp] theorem dataOn_heartbeat (i : ℕ) (consecutive : BitVec 5) :
    dataOn (⟨raw, .heartbeat i consecutive⟩ :: l) = dataOn l := rfl

@[simp] theorem creditsOn_nil : creditsOn ([] : List (Flit P)) = [] := rfl

@[simp] theorem creditsOn_append (l' : List (Flit P)) :
    creditsOn (l ++ l') = creditsOn l ++ creditsOn l' := List.filterMap_append

@[simp] theorem creditsOn_data : creditsOn (⟨raw, .data⟩ :: l) = creditsOn l := rfl

@[simp] theorem creditsOn_credit (value : ℕ) :
    creditsOn (⟨raw, .credit value⟩ :: l) = value :: creditsOn l := rfl

@[simp] theorem creditsOn_heartbeat (i : ℕ) (consecutive : BitVec 5) :
    creditsOn (⟨raw, .heartbeat i consecutive⟩ :: l) = creditsOn l := rfl

end Links

/-- The credits of `s` that are not with words: to spend, or on their way back. -/
def creditsHeld (s p : Side (Endpoint P) (Flit P)) : ℕ :=
  s.ep.txCredits + p.ep.rxCredits + (creditsOn p.link).sum + s.ep.creditFIFO.sum

/-- The flits of words from `s` that `p` has not given back the credit of. -/
def flitsHeld (s p : Side (Endpoint P) (Flit P)) : ℕ :=
  s.ep.marshaller.length + (dataOn s.link).length + p.ep.serdesInfifo.length +
    p.ep.demarshaller.length

/-- The flits of words. -/
def fragments (ws : List (Word P)) : List (Raw P) :=
  ws.flatMap fun w => Marshal.split P.interfaceWords (extend w)

theorem fragments_concat (ws : List (Word P)) (w : Word P) :
    fragments (ws ++ [w]) = fragments ws ++ Marshal.split P.interfaceWords (extend w) := by
  simp [fragments]

/-! ### One direction -/

/-- Words, credits and credit messages between two endpoints, with their places. -/
structure Flows (s p : Side (Endpoint P) (Flit P)) : Prop extends Frames s p where
  /-- The receiver's handshake is done. -/
  ready : p.ep.handshakeRXDone = true
  /-- Every word sent is a group of flits received, or on its way. -/
  stream : ∃ groups : List (List (Raw P)),
    groups.flatten ++ p.ep.demarshaller ++ p.ep.serdesInfifo ++ dataOn s.link ++ s.ep.marshaller =
      fragments s.ep.wordsSent ∧
    (∀ l ∈ groups, l.length = P.interfaceWords) ∧
    p.ep.wordsReceived = groups.map fun l => restrict (Marshal.join P.interfaceWords l)
  /-- Every credit value sent is received, or on its way. -/
  credits : p.ep.creditsReceived ++ creditsOn s.link = s.ep.creditsSent
  /-- No credit is lost or counted twice. -/
  conserved : P.interfaceWords * creditsHeld s p + flitsHeld s p = P.interfaceWords * totalCredits
  /-- A credit message is worth more than half of the credits. -/
  large : ∀ value ∈ creditsOn p.link ++ s.ep.creditFIFO, halfCredits < value
  /-- The failure branch was never taken. -/
  sound : s.ep.creditUnderflow = false

namespace Flows

variable {s p : Side (Endpoint P) (Flit P)} {e : Endpoint P} {x : Flit P}

/-- There are never more credits than there were. -/
theorem creditsHeld_le (h : Flows s p) : creditsHeld s p ≤ totalCredits := by
  refine Nat.le_of_mul_le_mul_left ?_ P.interfaceWords_pos
  rw [← h.conserved]
  exact Nat.le_add_right _ _

theorem rxCredits_le (h : Flows s p) : p.ep.rxCredits ≤ totalCredits := by
  have := h.creditsHeld_le
  rw [creditsHeld] at this
  omega

/-- **One credit message.** Two of them would be worth more than there is. -/
theorem outstanding (h : Flows s p) : (creditsOn p.link).length + s.ep.creditFIFO.length ≤ 1 := by
  have hle := h.creditsHeld_le
  have hsum : (creditsOn p.link ++ s.ep.creditFIFO).sum ≤ totalCredits := by
    rw [List.sum_append]
    rw [creditsHeld] at hle
    omega
  rw [← List.length_append]
  have hlarge := h.large
  revert hsum hlarge
  cases creditsOn p.link ++ s.ep.creditFIFO with
  | nil => simp
  | cons v l =>
    cases l with
    | nil => simp
    | cons v' l =>
      intro hsum hlarge
      have hv := hlarge v (by simp)
      have hv' := hlarge v' (by simp)
      simp only [List.sum_cons, totalCredits, halfCredits] at hsum hv hv'
      omega

/-! ### The sending endpoint moves -/

theorem sendTxHeartbeat (h : Flows s p) {f : Flit P} (ht : s.ep.txHeartbeat = some (e, f)) :
    Flows ⟨e, s.link ++ [f]⟩ p := by
  rw [Endpoint.txHeartbeat] at ht
  split at ht
  · next hc =>
    obtain ⟨rfl, rfl⟩ := Prod.mk.inj (Option.some.inj ht)
    have hnumber : s.ep.heartbeatTX + 1 =
        BitVec.ofNat 5 (s.ep.heartbeatsSent ++ [s.ep.heartbeatConsecutive]).length := by
      rw [h.numbered, List.length_append, List.length_singleton, BitVec.ofNat_add]
      rfl
    refine { h with
      toFrames := h.toFrames.control (by rintro ⟨⟩) ⟨hc.2.2, _, by rw [h.numbered]⟩ rfl rfl hnumber
      stream := ?_, credits := ?_, conserved := ?_ }
    · simpa using h.stream
    · simpa using h.credits
    · simpa [creditsHeld, flitsHeld] using h.conserved
  · cases ht

theorem sendTxFC (h : Flows s p) (hback : Flows p s) {f : Flit P}
    (ht : s.ep.txFC = some (e, f)) : Flows ⟨e, s.link ++ [f]⟩ p := by
  rw [Endpoint.txFC] at ht
  split at ht
  · next hc =>
    obtain ⟨rfl, rfl⟩ := Prod.mk.inj (Option.some.inj ht)
    have hlt : s.ep.rxCredits < creditRange :=
      Nat.lt_of_le_of_lt hback.rxCredits_le (by decide)
    refine { h with
      toFrames := h.toFrames.control (by rintro ⟨⟩) ⟨hc.1, rfl, hlt⟩ rfl rfl h.numbered
      stream := ?_, credits := ?_, conserved := ?_ }
    · simpa using h.stream
    · simp [← h.credits]
    · simpa [creditsHeld, flitsHeld] using h.conserved
  · cases ht

theorem sendTxData (h : Flows s p) (ht : s.ep.txData = some e) : Flows ⟨e, s.link⟩ p := by
  rw [Endpoint.txData] at ht
  split at ht
  · next w rest hw hm =>
    split at ht
    · next hc =>
      obtain rfl := Option.some.inj ht
      have hle := h.creditsHeld_le
      have hconserved := h.conserved
      simp only [creditsHeld, totalCredits] at hle
      have hspent : (s.ep.txCredits + creditRange - 1) % creditRange = s.ep.txCredits - 1 := by
        rw [creditRange]
        omega
      refine { h with
        toFrames := h.toFrames.load hm rfl rfl h.numbered
        stream := ?_, conserved := ?_ }
      · obtain ⟨groups, hflat, hlen, hwords⟩ := h.stream
        refine ⟨groups, ?_, hlen, hwords⟩
        rw [hm, List.append_nil] at hflat
        simp only [fragments_concat, ← hflat]
      · obtain ⟨t, htx⟩ : ∃ t, s.ep.txCredits = t + 1 := ⟨s.ep.txCredits - 1, by omega⟩
        rw [htx, Nat.add_sub_cancel, ← htx] at hspent
        simp only [creditsHeld, flitsHeld, hm, htx, List.length_nil, Nat.mul_add, Nat.mul_one]
          at hconserved
        simp only [creditsHeld, flitsHeld, hspent, Marshal.length_split, Nat.mul_add]
        omega
    · cases ht
  · cases ht

theorem sendTxSend (h : Flows s p) {f : Flit P} (ht : s.ep.txSend = some (e, f)) :
    Flows ⟨e, s.link ++ [f]⟩ p := by
  rw [Endpoint.txSend] at ht
  split at ht
  · cases ht
  · next d rest hd =>
    split at ht
    · obtain ⟨rfl, rfl⟩ := Prod.mk.inj (Option.some.inj ht)
      refine { h with
        toFrames := h.toFrames.send hd rfl rfl h.numbered
        stream := ?_, credits := ?_, conserved := ?_ }
      · obtain ⟨groups, hflat, hlen, hwords⟩ := h.stream
        refine ⟨groups, ?_, hlen, hwords⟩
        rw [hd] at hflat
        simpa using hflat
      · simpa using h.credits
      · have hconserved := h.conserved
        simp only [creditsHeld, flitsHeld, hd, List.length_cons] at hconserved
        simp only [creditsHeld, flitsHeld, dataOn_append, dataOn_data, dataOn_nil,
          List.length_append, List.length_singleton]
        omega
    · cases ht

theorem sendUpdateCredit (h : Flows s p) (ht : s.ep.updateCredit = some e) :
    Flows ⟨e, s.link⟩ p := by
  rw [Endpoint.updateCredit] at ht
  split at ht
  · cases ht
  · next v rest hv =>
    obtain rfl := Option.some.inj ht
    have hle := h.creditsHeld_le
    simp only [creditsHeld, hv, List.sum_cons, totalCredits] at hle
    -- the sum is the number of credits, without overflow
    have hsum : (s.ep.txCredits + v) % creditRange = s.ep.txCredits + v :=
      Nat.mod_eq_of_lt (by rw [creditRange]; omega)
    refine { h with conserved := ?_, large := ?_, sound := ?_ }
    · have hconserved := h.conserved
      simp only [creditsHeld, flitsHeld, hv, List.sum_cons] at hconserved
      simp only [creditsHeld, flitsHeld, hsum]
      rw [← hconserved]
      congr 2
      omega
    · intro value hvalue
      refine h.large value ?_
      rw [hv]
      rcases List.mem_append.mp hvalue with hvalue | hvalue
      · exact List.mem_append_left _ hvalue
      · exact List.mem_append_right _ (List.mem_cons_of_mem _ hvalue)
    · show (if totalCredits < (s.ep.txCredits + v) % creditRange then true else _) = false
      rw [if_neg (by rw [hsum, totalCredits]; omega)]
      exact h.sound

/-- **Every rule of the sending endpoint** keeps the direction as it should be. -/
theorem sendRule (h : Flows s p) (hback : Flows p s) {r : Rule P} {out : Option (Flit P)}
    (hr : rule r s.ep = some (e, out)) : Flows ⟨e, s.link ++ out.toList⟩ p := by
  cases r <;> first
    | obtain ⟨rfl, rfl⟩ := Prod.mk.inj (Option.some.inj hr)
    | obtain ⟨_, ht, heq⟩ := Option.map_eq_some_iff.mp hr
      obtain ⟨rfl, rfl⟩ := Prod.mk.inj heq
  case write =>
    rw [Option.toList_none, List.append_nil]
    rw [Endpoint.write] at ht
    split at ht
    · obtain rfl := Option.some.inj ht
      exact { h with }
    · cases ht
  case tickCC =>
    rw [Option.toList_none, List.append_nil]
    rw [Endpoint.tickCC] at ht
    split at ht
    · obtain rfl := Option.some.inj ht
      exact { h with }
    · cases ht
  case beat =>
    rw [Option.toList_none, List.append_nil]
    exact { h with }
  case txHeartbeat => exact h.sendTxHeartbeat ht
  case txFC => exact h.sendTxFC hback ht
  case txData =>
    rw [Option.toList_none, List.append_nil]
    exact h.sendTxData ht
  case txSend => exact h.sendTxSend ht
  case updateCredit =>
    rw [Option.toList_none, List.append_nil]
    exact h.sendUpdateCredit ht
  case rxDemarsh =>
    rw [Option.toList_none, List.append_nil]
    rw [Endpoint.rxDemarsh] at ht
    split at ht
    · cases ht
    · split at ht
      · obtain rfl := Option.some.inj ht
        exact { h with }
      · cases ht
  case rxDone =>
    rw [Option.toList_none, List.append_nil]
    rw [Endpoint.rxDone] at ht
    split at ht
    · obtain rfl := Option.some.inj ht
      exact { h with }
    · cases ht
  case deq =>
    rw [Option.toList_none, List.append_nil]
    rw [Endpoint.deq] at ht
    split at ht
    · cases ht
    · obtain rfl := Option.some.inj ht
      exact { h with }

/-- A flit at the head of the link is in its place. -/
theorem fits_head {link : List (Flit P)} (h : Frames s p) (hx : s.link = x :: link) :
    x.fits p.ep.flitCountRX := by
  have hframed := h.framed
  rw [hx] at hframed
  cases hframed with
  | cons hfits _ => exact hfits

/-- The sending endpoint takes a flit from the peer's link. -/
theorem sendIntake (h : Flows s p) (hback : Flows p s) {link : List (Flit P)}
    (hx : p.link = x :: link) (ht : s.ep.rxIntake x.raw = some e) :
    Flows ⟨e, s.link⟩ ⟨p.ep, link⟩ := by
  have hfits := fits_head hback.toFrames hx
  have hconserved := h.conserved
  have hlarge := h.large
  simp only [creditsHeld, flitsHeld, hx] at hconserved
  rw [hx] at hlarge
  obtain ⟨raw, sent⟩ := x
  rcases rxIntake_cases hfits (fun _ => hback.ready) ht with
    ⟨i, consecutive, hs, rfl⟩ | ⟨value, hs, rfl⟩ | ⟨hs, rfl⟩
  · obtain rfl : sent = _ := hs
    exact { h with conserved := hconserved, large := hlarge }
  · obtain rfl : sent = _ := hs
    refine { h with conserved := ?_, large := ?_ }
    · rw [creditsOn_credit, List.sum_cons] at hconserved
      simp only [creditsHeld, flitsHeld, List.sum_append, List.sum_singleton]
      rw [← hconserved]
      congr 2
      omega
    · intro v hv
      refine hlarge v ?_
      rw [creditsOn_credit]
      simp only [List.mem_append, List.mem_cons, List.not_mem_nil, or_false] at hv ⊢
      rcases hv with hv | hv | hv
      · exact Or.inl (Or.inr hv)
      · exact Or.inr hv
      · exact Or.inl (Or.inl hv)
  · obtain rfl : sent = _ := hs
    exact { h with conserved := hconserved, large := hlarge }

/-- **Every move of the sending endpoint** keeps the direction as it should be. -/
theorem send {s' p' : Side (Endpoint P) (Flit P)} (h : Flows s p) (hback : Flows p s)
    (hmove : Move (machine P) s p s' p') : Flows s' p' := by
  cases hmove with
  | rule r ep out hr => exact h.sendRule hback hr
  | intake x link ep hx ht => exact h.sendIntake hback hx ht

/-! ### The receiving endpoint moves -/

/-- The receiving endpoint puts a flit onto its own link. -/
theorem recvSend (h : Flows s p) {f : Flit P} (hf : creditsOn [f] = [])
    (hready : e.handshakeRXDone = p.ep.handshakeRXDone) (hcount : e.flitCountRX = p.ep.flitCountRX)
    (hdem : e.demarshaller = p.ep.demarshaller) (hin : e.serdesInfifo = p.ep.serdesInfifo)
    (hwords : e.wordsReceived = p.ep.wordsReceived)
    (hcredits : e.creditsReceived = p.ep.creditsReceived) (hrx : e.rxCredits = p.ep.rxCredits) :
    Flows s ⟨e, p.link ++ [f]⟩ where
  countRX_lt := by rw [show Side.ep _ = e from rfl, hcount]; exact h.countRX_lt
  countTX_lt := h.countTX_lt
  framed := by rw [show Side.ep ⟨e, _⟩ = e from rfl, hcount]; exact h.framed
  marshaller := h.marshaller
  plain := h.plain
  numbered := h.numbered
  ready := hready.trans h.ready
  stream := by
    rw [show Side.ep ⟨e, _⟩ = e from rfl, hdem, hin, hwords]
    exact h.stream
  credits := by
    rw [show Side.ep ⟨e, _⟩ = e from rfl, hcredits]
    exact h.credits
  conserved := by
    have hconserved := h.conserved
    simp only [creditsHeld, flitsHeld] at hconserved
    simp only [creditsHeld, flitsHeld, creditsOn_append, hf, List.append_nil, hdem, hin, hrx]
    exact hconserved
  large := by
    rw [creditsOn_append, hf, List.append_nil]
    exact h.large
  sound := h.sound

theorem recvTxHeartbeat (h : Flows s p) {f : Flit P} (ht : p.ep.txHeartbeat = some (e, f)) :
    Flows s ⟨e, p.link ++ [f]⟩ := by
  rw [Endpoint.txHeartbeat] at ht
  split at ht
  · obtain ⟨rfl, rfl⟩ := Prod.mk.inj (Option.some.inj ht)
    exact h.recvSend rfl rfl rfl rfl rfl rfl rfl rfl
  · cases ht

theorem recvTxSend (h : Flows s p) {f : Flit P} (ht : p.ep.txSend = some (e, f)) :
    Flows s ⟨e, p.link ++ [f]⟩ := by
  rw [Endpoint.txSend] at ht
  split at ht
  · cases ht
  · split at ht
    · obtain ⟨rfl, rfl⟩ := Prod.mk.inj (Option.some.inj ht)
      exact h.recvSend rfl rfl rfl rfl rfl rfl rfl rfl
    · cases ht

theorem recvTxFC (h : Flows s p) {f : Flit P} (ht : p.ep.txFC = some (e, f)) :
    Flows s ⟨e, p.link ++ [f]⟩ := by
  rw [Endpoint.txFC] at ht
  split at ht
  · next hc =>
    obtain ⟨rfl, rfl⟩ := Prod.mk.inj (Option.some.inj ht)
    have hlarge : halfCredits < p.ep.rxCredits := by
      simp only [halfCredits, threeQuartersCredits] at hc ⊢
      omega
    refine { h with conserved := ?_, large := ?_ }
    · have hconserved := h.conserved
      simp only [creditsHeld, flitsHeld] at hconserved
      simp only [creditsHeld, flitsHeld, creditsOn_append, creditsOn_credit, creditsOn_nil,
        List.sum_append, List.sum_singleton]
      rw [← hconserved]
      congr 2
      omega
    · intro value hvalue
      simp only [creditsOn_append, creditsOn_credit, creditsOn_nil, List.mem_append,
        List.mem_singleton] at hvalue
      rcases hvalue with (hvalue | rfl) | hvalue
      · exact h.large value (List.mem_append_left _ hvalue)
      · exact hlarge
      · exact h.large value (List.mem_append_right _ hvalue)
  · cases ht

theorem recvRxDemarsh (h : Flows s p) (ht : p.ep.rxDemarsh = some e) : Flows s ⟨e, p.link⟩ := by
  rw [Endpoint.rxDemarsh] at ht
  split at ht
  · cases ht
  · next d rest hd =>
    split at ht
    · obtain rfl := Option.some.inj ht
      refine { h with stream := ?_, conserved := ?_ }
      · obtain ⟨groups, hflat, hlen, hwords⟩ := h.stream
        refine ⟨groups, ?_, hlen, hwords⟩
        rw [hd] at hflat
        simpa using hflat
      · have hconserved := h.conserved
        simp only [creditsHeld, flitsHeld, hd, List.length_cons] at hconserved
        simp only [creditsHeld, flitsHeld, List.length_append, List.length_singleton]
        omega
    · cases ht

/-- A word goes to the user, and its credit back. -/
theorem recvRxDone (h : Flows s p) (ht : p.ep.rxDone = some e) : Flows s ⟨e, p.link⟩ := by
  rw [Endpoint.rxDone] at ht
  split at ht
  · next hc =>
    obtain rfl := Option.some.inj ht
    have hconserved := h.conserved
    simp only [creditsHeld, flitsHeld, hc.1] at hconserved
    have hlt : p.ep.rxCredits < totalCredits := by
      have hpos := P.interfaceWords_pos
      refine Nat.lt_of_mul_lt_mul_left (a := P.interfaceWords) ?_
      rw [← hconserved]
      simp only [Nat.mul_add]
      omega
    have hsucc : (p.ep.rxCredits + 1) % creditRange = p.ep.rxCredits + 1 := by
      rw [totalCredits] at hlt
      rw [creditRange]
      omega
    refine { h with stream := ?_, conserved := ?_ }
    · obtain ⟨groups, hflat, hlen, hwords⟩ := h.stream
      refine ⟨groups ++ [p.ep.demarshaller], ?_, ?_, ?_⟩
      · rw [← hflat]
        simp
      · intro l hl
        rcases List.mem_append.mp hl with hl | hl
        · exact hlen l hl
        · rw [List.mem_singleton.mp hl, hc.1]
      · rw [List.map_append, ← hwords, List.map_singleton]
    · simp only [creditsHeld, flitsHeld, hsucc, List.length_nil, Nat.mul_add, Nat.mul_one]
      rw [← hconserved]
      simp only [Nat.mul_add]
      omega
  · cases ht

/-- **Every rule of the receiving endpoint** keeps the direction as it should be. -/
theorem recvRule (h : Flows s p) {r : Rule P} {out : Option (Flit P)}
    (hr : rule r p.ep = some (e, out)) : Flows s ⟨e, p.link ++ out.toList⟩ := by
  cases r <;> first
    | obtain ⟨rfl, rfl⟩ := Prod.mk.inj (Option.some.inj hr)
    | obtain ⟨_, ht, heq⟩ := Option.map_eq_some_iff.mp hr
      obtain ⟨rfl, rfl⟩ := Prod.mk.inj heq
  case write =>
    rw [Option.toList_none, List.append_nil]
    rw [Endpoint.write] at ht
    split at ht
    · obtain rfl := Option.some.inj ht
      exact { h with }
    · cases ht
  case tickCC =>
    rw [Option.toList_none, List.append_nil]
    rw [Endpoint.tickCC] at ht
    split at ht
    · obtain rfl := Option.some.inj ht
      exact { h with }
    · cases ht
  case beat =>
    rw [Option.toList_none, List.append_nil]
    exact { h with }
  case txHeartbeat => exact h.recvTxHeartbeat ht
  case txFC => exact h.recvTxFC ht
  case txData =>
    rw [Option.toList_none, List.append_nil]
    rw [Endpoint.txData] at ht
    split at ht
    · split at ht
      · obtain rfl := Option.some.inj ht
        exact { h with }
      · cases ht
    · cases ht
  case txSend => exact h.recvTxSend ht
  case updateCredit =>
    rw [Option.toList_none, List.append_nil]
    rw [Endpoint.updateCredit] at ht
    split at ht
    · cases ht
    · obtain rfl := Option.some.inj ht
      exact { h with }
  case rxDemarsh =>
    rw [Option.toList_none, List.append_nil]
    exact h.recvRxDemarsh ht
  case rxDone =>
    rw [Option.toList_none, List.append_nil]
    exact h.recvRxDone ht
  case deq =>
    rw [Option.toList_none, List.append_nil]
    rw [Endpoint.deq] at ht
    split at ht
    · cases ht
    · obtain rfl := Option.some.inj ht
      exact { h with }

/-- The receiving endpoint takes a flit from the link. -/
theorem recvIntake (h : Flows s p) {link : List (Flit P)} (hx : s.link = x :: link)
    (ht : p.ep.rxIntake x.raw = some e) : Flows ⟨s.ep, link⟩ ⟨e, p.link⟩ := by
  have hfits := fits_head h.toFrames hx
  obtain ⟨groups, hflat, hlen, hwords⟩ := h.stream
  have hcredits := h.credits
  have hconserved := h.conserved
  simp only [creditsHeld, flitsHeld, hx] at hconserved
  rw [hx] at hflat hcredits
  obtain ⟨raw, sent⟩ := x
  rcases rxIntake_cases hfits (fun _ => h.ready) ht with
    ⟨i, consecutive, hs, rfl⟩ | ⟨value, hs, rfl⟩ | ⟨hs, rfl⟩
  · obtain rfl : sent = _ := hs
    have hready : (p.ep.rxHeartbeat raw).handshakeRXDone = true := by
      show (if _ then true else p.ep.handshakeRXDone) = true
      rw [h.ready]
      split <;> rfl
    exact { (h.toFrames.take hx rfl).2 p.link with
      ready := hready, stream := ⟨groups, hflat, hlen, hwords⟩, credits := hcredits
      conserved := hconserved, large := h.large, sound := h.sound }
  · obtain rfl : sent = _ := hs
    refine { (h.toFrames.take hx rfl).2 p.link with
      ready := h.ready, stream := ⟨groups, hflat, hlen, hwords⟩, credits := ?_
      conserved := hconserved, large := h.large, sound := h.sound }
    rw [← hcredits]
    simp
  · obtain rfl : sent = _ := hs
    refine { (h.toFrames.take hx rfl).2 p.link with
      ready := h.ready, stream := ⟨groups, ?_, hlen, hwords⟩, credits := hcredits
      conserved := ?_, large := h.large, sound := h.sound }
    · rw [← hflat]
      simp
    · rw [dataOn_data, List.length_cons] at hconserved
      simp only [creditsHeld, flitsHeld, List.length_append, List.length_singleton]
      omega

/-- **Every move of the receiving endpoint** keeps the direction as it should be. -/
theorem recv {s' p' : Side (Endpoint P) (Flit P)} (h : Flows s p)
    (hmove : Move (machine P) p s p' s') : Flows s' p' := by
  cases hmove with
  | rule r ep out hr => exact h.recvRule hr
  | intake x link ep hx ht => exact h.recvIntake hx ht

/-- Flits of words are as many as the credits that are not there allow. -/
theorem flitsHeld_le (h : Flows s p) : flitsHeld s p ≤ totalCredits * P.interfaceWords := by
  rw [Nat.mul_comm, ← h.conserved]
  exact Nat.le_add_left _ _

/-- A flit at the head of the link can be taken. -/
theorem intake_isSome (h : Flows s p) (hback : Flows p s) (hx : s.link.head? = some x) :
    (p.ep.rxIntake x.raw).isSome = true := by
  obtain ⟨link, hlink⟩ := List.head?_eq_some_iff.mp hx
  have hfits := fits_head h.toFrames hlink
  rw [rxIntake_eq h.ready, classify_of_fits hfits]
  obtain ⟨raw, sent⟩ := x
  cases sent with
  | heartbeat i consecutive => rfl
  | credit value =>
    have hone := hback.outstanding
    rw [hlink, creditsOn_credit, List.length_cons] at hone
    show (p.ep.rxCredit raw).isSome = true
    rw [Endpoint.rxCredit, if_pos (by omega)]
    rfl
  | data =>
    have hle := h.flitsHeld_le
    rw [flitsHeld, hlink, dataOn_data, List.length_cons] at hle
    show (p.ep.rxData raw).isSome = true
    rw [Endpoint.rxData, if_pos (by omega)]
    rfl

end Flows

end FlowControl

end Aurora

end LeapPlatforms
