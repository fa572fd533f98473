import LeapPlatforms.Foundation.CrcPolynomial
import LeapPlatforms.Aurora.GroupedLink

/-!
# The checksums of the two ends

Sender and receiver each keep a place in the chain of checksums: the position in the group and the
checksum of the last chained flit. What the receiver makes of a flit depends on its place alone.
Every flit that a sender at the same place sends passes the receiver's check, and brings the two
ends to the same place again: a header and an acknowledgement start from zero, a data flit goes on
from the place, and the last data flit of a word ends in eight zero bits, into which the checksum
goes.

## Main definitions

* `Place`, `Place.follow`, `Place.clean` — what the receiver makes of a flit
* `Leads` — flits that are right one after the other
* `Sending` — the sender's books, with which data flits end in zeros
* `Places` — what a rule does to the places of its endpoint

## Main results

* `clean_control`, `follow_header` — flits with a checksum of their own
* `Sending.data_low` — the last data flit of a word ends in zeros
* `clean_packFragment`, `follow_packFragment` — data flits
* `Sending.step` — the rules keep the books
* `places_shared` — what is sent is right at the sender's own place
-/

namespace LeapPlatforms

namespace Aurora

open LossyLink (Flit Kind)

namespace Grouped

variable {F : Format}

/-- A place in a chain of checksums. -/
structure Place where
  /-- The position in the group. -/
  fragment : ℕ
  /-- The checksum of the last chained flit. -/
  parity : BitVec 8
  deriving DecidableEq, Repr

/-- The place of the sender: `fragmentNumberTX` and `parityTX`. -/
def Core.placeTX (e : Core F) : Place := ⟨e.fragmentNumberTX, e.parityTX⟩

/-- The place of the receiver: `fragmentNumberRX` and `parityRX`. -/
def Core.placeRX (e : Core F) : Place := ⟨e.fragmentNumberRX, e.parityRX⟩

namespace Place

/-- The checksum that a receiver at this place computes. -/
def hash (t : Place) (raw : Raw F) : BitVec 8 :=
  doHash (if ctrlOf raw = payload then t.parity else 0) (raw.setWidth 64)

/-- Whether a receiver at this place finds a flit right. -/
def clean (t : Place) (raw : Raw F) : Bool :=
  t.hash raw == 0 || (ctrlOf raw == payload && !F.fragmentCounter.isLast t.fragment)

/-- The place after a flit. -/
def follow (t : Place) (raw : Raw F) : Place :=
  match kind raw with
  | .header => ⟨0, hashOf raw⟩
  | .payload =>
    if F.fragmentCounter.isLast t.fragment then ⟨0, hashOf raw⟩
    else ⟨F.fragmentCounter.succ t.fragment, t.hash raw⟩
  | .control => t

end Place

/-- Without an error from the physical layer, a flit is right if the receiver's place says so. -/
theorem notCorrupt_eq_clean {e : Core F} {x : Flit (Raw F)} (h : x.softErr = false) :
    e.notCorrupt x = e.placeRX.clean x.raw := by
  rw [Core.notCorrupt, h, Bool.not_false, Bool.and_true]
  rfl

/-- Flits that a receiver at this place finds right, one after the other, and the places that they
bring it to. -/
inductive Leads : Place → List (Raw F) → List Place → Prop
  /-- Nothing is left. -/
  | nil (t : Place) : Leads t [] []
  /-- The next flit is right. -/
  | cons {t : Place} {raw : Raw F} {flits : List (Raw F)} {places : List Place} :
      t.clean raw = true → Leads (t.follow raw) flits places →
      Leads t (raw :: flits) (t.follow raw :: places)

/-- One more flit, right at the last place. -/
theorem Leads.snoc {t : Place} {flits : List (Raw F)} {places : List Place} {raw : Raw F}
    (h : Leads t flits places) (hclean : (places.getLastD t).clean raw = true) :
    Leads t (flits ++ [raw]) (places ++ [(places.getLastD t).follow raw]) := by
  induction h with
  | nil t => exact .cons hclean (.nil _)
  | cons hfirst _ ih =>
    rw [List.getLastD_cons] at hclean ⊢
    exact .cons hfirst (ih hclean)

/-! ### The check bits -/

theorem setWidth_setWidth_parity {v w : ℕ} (hv : 8 ≤ v) (hash : BitVec 8) :
    (hash.setWidth v).setWidth w = hash.setWidth w := by
  refine BitVec.eq_of_getLsbD_eq fun i hi => ?_
  rw [BitVec.getLsbD_setWidth, BitVec.getLsbD_setWidth, BitVec.getLsbD_setWidth]
  by_cases hlow : i < v
  · simp [hlow]
  · simp [BitVec.getLsbD_of_ge hash i (by omega)]

/-- A flit whose low eight bits are zero has no remainder with its checksum in them. -/
theorem doHash_mix {init : BitVec 8} {data : Raw F} (hdata : data.setWidth 8 = 0) :
    doHash init ((mix true (hashTX init data) data).setWidth 64) = 0 := by
  have hlow : (data.setWidth 64).setWidth 8 = 0 := by
    rw [BitVec.setWidth_setWidth_of_le _ (by decide)]
    exact hdata
  rw [mix, if_pos rfl, BitVec.setWidth_or, setWidth_setWidth_parity (Nat.le_add_left _ _), doHash,
    Crc.hash_check (by decide) (by decide) _ _ hlow]
  rfl

/-- The checksum is read back. -/
theorem hashOf_mix {hash : BitVec 8} {data : Raw F} (hdata : data.setWidth 8 = 0) :
    hashOf (mix true hash data) = hash := by
  have hle : 8 ≤ F.tagExtra + 1 + F.controlDataSize + 8 := Nat.le_add_left _ _
  rw [hashOf, ← BitVec.setWidth_eq_extractLsb' hle, mix, if_pos rfl, BitVec.setWidth_or, hdata,
    setWidth_setWidth_parity hle, BitVec.setWidth_eq]
  simp

theorem controlData_low (tag : BitVec (F.tagExtra + 1)) (value : ℕ) :
    (controlData tag value).setWidth 8 = 0 := by
  refine BitVec.eq_of_getLsbD_eq fun i hi => ?_
  rw [BitVec.getLsbD_setWidth, controlData, BitVec.getLsbD_append]
  simp [hi]

theorem fragmentData_low {d : Data F} (hd : d.setWidth 8 = 0) :
    (fragmentData d).setWidth 8 = 0 := by
  refine BitVec.eq_of_getLsbD_eq fun i hi => ?_
  have hbit := congrArg (fun x => BitVec.getLsbD x i) hd
  have hsize : i < F.dataSize := by
    simp only [Format.dataSize]
    omega
  rw [BitVec.getLsbD_setWidth] at hbit ⊢
  rw [fragmentData, BitVec.getLsbD_cast, BitVec.getLsbD_append]
  simpa [hi, hsize] using hbit

/-! ### What a flit does to the receiver's place -/

variable {t : Place}

theorem ctrlOf_control_ne {tag : BitVec (F.tagExtra + 1)} (hmsb : tag.extractLsb' F.tagExtra 1 = 1)
    (value : ℕ) : ctrlOf (packControl tag value) ≠ payload := by
  rw [ctrlOf_packControl, hmsb]
  decide

/-- A control flit is right at every place. -/
theorem clean_control {tag : BitVec (F.tagExtra + 1)} (hmsb : tag.extractLsb' F.tagExtra 1 = 1)
    (value : ℕ) : t.clean (packControl tag value) = true := by
  rw [Place.clean, Place.hash, if_neg (ctrlOf_control_ne hmsb value), packControl,
    doHash_mix (controlData_low tag value)]
  rfl

/-- A header starts a group at the sender's new place. -/
theorem follow_header (seq : ℕ) :
    t.follow (packControl F.header seq) = ⟨0, hashTX 0 (controlData F.header seq)⟩ := by
  rw [Place.follow, kind_header, packControl, hashOf_mix (controlData_low F.header seq)]

/-- A control flit that is no header leaves the place as it is. -/
theorem follow_control {tag : BitVec (F.tagExtra + 1)} (hmsb : tag.extractLsb' F.tagExtra 1 = 1)
    (hne : tag ≠ F.header) (value : ℕ) : t.follow (packControl tag value) = t := by
  rw [Place.follow, kind_control hmsb hne]

/-- What a data flit inside a group is read as. -/
theorem hash_inside (d : Data F) :
    t.hash (packFragment t.parity false d) = hashTX t.parity (fragmentData d) := by
  rw [Place.hash, if_pos (ctrlOf_packFragment _ _ _), packFragment, mix, if_neg (by simp), hashTX]
  simp

/-- A data flit of the sender at the same place is right, if the last of a word ends in zeros. -/
theorem clean_packFragment {d : Data F}
    (hd : F.fragmentCounter.isLast t.fragment = true → d.setWidth 8 = 0) :
    t.clean (packFragment t.parity (F.fragmentCounter.isLast t.fragment) d) = true := by
  rw [Place.clean, Place.hash, if_pos (ctrlOf_packFragment _ _ _), ctrlOf_packFragment]
  cases hlast : F.fragmentCounter.isLast t.fragment with
  | false => simp
  | true =>
    rw [packFragment, doHash_mix (fragmentData_low (hd hlast))]
    rfl

/-- After it, the two ends are at the same place again. -/
theorem follow_packFragment {d : Data F}
    (hd : F.fragmentCounter.isLast t.fragment = true → d.setWidth 8 = 0) :
    t.follow (packFragment t.parity (F.fragmentCounter.isLast t.fragment) d) =
      ⟨if F.fragmentCounter.isLast t.fragment then 0 else F.fragmentCounter.succ t.fragment,
        hashTX t.parity (fragmentData d)⟩ := by
  rw [Place.follow, kind_packFragment]
  cases hlast : F.fragmentCounter.isLast t.fragment with
  | false => rw [if_neg Bool.false_ne_true, if_neg Bool.false_ne_true, hash_inside]
  | true => rw [if_pos rfl, if_pos rfl, packFragment, hashOf_mix (fragmentData_low (hd hlast))]

/-! ### The last data flit of a word -/

theorem split_low {w n i : ℕ} (x : BitVec (n * w)) {d : BitVec w} (hw : 8 ≤ w)
    (hx : x.setWidth 8 = 0) (hi : i + 1 = n) (h : (Marshal.split n x)[i]? = some d) :
    d.setWidth 8 = 0 := by
  induction n generalizing i with
  | zero => cases hi
  | succ n ih =>
    rw [Marshal.split] at h
    obtain rfl : i = n := Nat.succ.inj hi
    rcases i with _ | i
    · obtain rfl : x.extractLsb' (0 * w) w = d := by simpa using h
      refine BitVec.eq_of_getLsbD_eq fun j hj => ?_
      have hbit := congrArg (fun x => BitVec.getLsbD x j) hx
      rw [BitVec.getLsbD_setWidth] at hbit ⊢
      simpa [show j < w by omega] using hbit
    · rw [List.getElem?_cons_succ] at h
      refine ih (x.extractLsb' 0 ((i + 1) * w)) ?_ rfl h
      refine BitVec.eq_of_getLsbD_eq fun j hj => ?_
      have hbit := congrArg (fun x => BitVec.getLsbD x j) hx
      have hle : 1 * w ≤ (i + 1) * w := Nat.mul_le_mul_right w (Nat.le_add_left _ _)
      rw [BitVec.getLsbD_setWidth] at hbit ⊢
      simpa [show j < (i + 1) * w by omega] using hbit

theorem pad_low (x : Word F) : (pad x).setWidth 8 = 0 := by
  refine BitVec.eq_of_getLsbD_eq fun i hi => ?_
  rw [BitVec.getLsbD_setWidth, pad, BitVec.getLsbD_cast, BitVec.getLsbD_append]
  simp [hi]

/-- Of the data flits of words, every one that is the last of its word ends in zeros. -/
theorem fragments_low {ws : List (Word F)} {i : ℕ} {d : Data F}
    (hi : (i + 1) % F.interfaceWords = 0) (h : (fragments ws)[i]? = some d) :
    d.setWidth 8 = 0 := by
  induction ws generalizing i with
  | nil => cases h
  | cons w ws ih =>
    change (Marshal.split F.interfaceWords (pad w) ++ fragments ws)[i]? = some d at h
    have hpos := F.interfaceWords_pos
    by_cases hlt : i < F.interfaceWords
    · rw [List.getElem?_append_left (by rwa [Marshal.length_split])] at h
      have hend : i + 1 = F.interfaceWords := by
        by_contra hne
        rw [Nat.mod_eq_of_lt (by omega)] at hi
        cases hi
      exact split_low (pad w) (Nat.le_add_left _ _) (pad_low w) hend h
    · rw [List.getElem?_append_right (by rw [Marshal.length_split]; omega),
        Marshal.length_split] at h
      refine ih ?_ h
      have hsub : i + 1 = i - F.interfaceWords + 1 + F.interfaceWords := by omega
      rwa [hsub, Nat.add_mod_right] at hi

/-! ### The sender's books -/

/-- The sender knows where in the user's words the next data flit is. -/
structure Sending (e : Core F) : Prop where
  /-- The queues of the transmit side. -/
  books : Sender.Bookkeeping F.frameCounter e.tx
  /-- The user's words, and the position in the word. -/
  supplies : Supplies e
  /-- Whole frames are committed. -/
  committed : F.frameCounter.size ∣ e.tx.txDataRewindBuffer.committed.length

variable {e e' : Core F} {out : Option (Raw F)}

/-- **The last data flit of a word ends in zeros.** -/
theorem Sending.data_low (h : Sending e) {d : Data F} (hbusy : e.tx.frameInProgress = true)
    (hd : e.tx.txDataRewindBuffer.first = some d)
    (hlast : F.fragmentCounter.isLast e.fragmentNumberTX = true) : d.setWidth 8 = 0 := by
  have hget := RewindFifo.stream_getElem?_of_first hd
  have hgiven : (fragments e.given)[e.tx.txDataRewindBuffer.committed.length +
      e.tx.txDataRewindBuffer.taken.length]? = some d := by
    rw [← h.supplies.stream, List.append_assoc]
    have hlt := (List.getElem?_eq_some_iff.mp hget).1
    rw [List.getElem?_append_left hlt]
    exact hget
  refine fragments_low ?_ hgiven
  rw [h.supplies.mixHash hbusy, beq_iff_eq] at hlast
  obtain ⟨frames, hframes⟩ := h.committed
  have htaken := h.books.data_taken
  rw [Sender.sentOfFrame, if_pos hbusy] at htaken
  obtain ⟨words, hwords⟩ := interfaceWords_dvd_size (F := F)
  have hindex : e.tx.txDataRewindBuffer.committed.length +
      e.tx.txDataRewindBuffer.taken.length + 1 =
      e.tx.framePositionTX + 1 +
        F.interfaceWords * (words * (frames + e.tx.ackSequenceNumberRX.length)) := by
    rw [hframes, htaken, hwords]
    ring
  rw [hindex, Nat.add_mul_mod_self_left]
  exact hlast

theorem sending_reset : Sending (Core.reset F) :=
  ⟨Sender.bookkeeping_reset, ⟨rfl, by rintro ⟨⟩⟩, Nat.dvd_zero _⟩

/-- A silent rule commits whole frames. -/
theorem committed_quiet (hbooks : Sender.Bookkeeping F.frameCounter e.tx) {tx : Sender (Data F)}
    (hq : Sender.Quiet F.frameCounter e.tx tx)
    (h : F.frameCounter.size ∣ e.tx.txDataRewindBuffer.committed.length) :
    F.frameCounter.size ∣ tx.txDataRewindBuffer.committed.length := by
  cases hq with
  | timerCount => exact h
  | sequenceStuffer _ ht =>
    obtain ⟨_, rfl⟩ := Sender.sequenceStuffer_cases ht
    exact h
  | passRewind _ d ht =>
    obtain rfl := Sender.passRewind_cases ht
    exact h
  | timeout => exact h
  | dropAck _ ht =>
    obtain ⟨_, _, _, _, rfl⟩ := Sender.dropAck_cases ht
    exact h
  | handleAck _ ht =>
    obtain ⟨_, _, _, _, hacks, _, ⟨_, rfl⟩ | ⟨_, _, _, _, rfl⟩⟩ := Sender.handleAck_cases ht
    · exact h
    · -- a frame that is acknowledged was sent completely
      have htaken := hbooks.data_taken
      rw [hacks, List.length_cons, Nat.mul_succ] at htaken
      change F.frameCounter.size ∣ (RewindFifo.commit _ _).committed.length
      rw [RewindFifo.committed_commit_length, Nat.min_eq_left (by omega)]
      exact Nat.dvd_add h (dvd_refl _)

theorem Sending.of_sameTransmit (h : Sending e) (hs : Core.SameTransmit e e') : Sending e' := by
  refine ⟨?_, h.supplies.of_sameTransmit hs, ?_⟩
  · rw [hs.tx]
    exact h.books
  · rw [hs.tx]
    exact h.committed

/-- **Every rule keeps the books.** -/
theorem Sending.step (h : Sending e) {ex : Option (Flit (Raw F))} (heff : Effect e e' out ex) :
    Sending e' := by
  cases heff with
  | silent hs =>
    refine ⟨?_, hs.supplies h.supplies, ?_⟩
    · rcases hs.tx with htx | hq
      · rw [htx]
        exact h.books
      · exact h.books.quiet hq
    · rcases hs.tx with htx | hq
      · rw [htx]
        exact h.committed
      · exact committed_quiet h.books hq h.committed
  | txHeader ht =>
    obtain ⟨tx, seq, htx, _, heq⟩ := Core.txHeader_cases ht
    refine ⟨?_, h.supplies.txHeader ht, ?_⟩
    · rw [heq]
      exact h.books.txHeader htx
    · obtain ⟨_, _, _, rfl⟩ := Sender.txHeader_cases htx
      rw [heq]
      exact h.committed
  | txSend ht =>
    obtain ⟨tx, d, htx, _, heq⟩ := Core.txSend_cases ht
    obtain ⟨hbusy, _, hcases⟩ := Sender.txSend_cases htx
    refine ⟨?_, h.supplies.txSend ht (h.books.position_lt hbusy), ?_⟩
    · rw [heq]
      exact h.books.txSend htx
    · rw [heq]
      rcases hcases with ⟨_, rfl⟩ | ⟨_, _, _, rfl⟩
      · exact h.committed
      · exact h.committed
  | txACK ht =>
    obtain ⟨a, rest, _, _, heq⟩ := Core.txACK_cases ht
    rw [heq]
    exact ⟨h.books, ⟨h.supplies.stream, h.supplies.fragment⟩, h.committed⟩
  | other _ _ => exact h
  | @examine _ x rest _ hexamines =>
    have hrest : Sending { e with serdesInfifo := rest } :=
      ⟨h.books, ⟨h.supplies.stream, h.supplies.fragment⟩, h.committed⟩
    cases hexamines with
    | hold _ _ _ _ hsame => exact hrest.of_sameTransmit hsame
    | complete _ _ _ _ _ hsame => exact hrest.of_sameTransmit hsame
    | fail _ _ _ _ hsame => exact hrest.of_sameTransmit hsame
    | skip _ _ _ _ hsame => exact hrest.of_sameTransmit hsame
    | header _ _ hsame _ => exact hrest.of_sameTransmit { hsame with }
    | ignore _ => exact hrest
    | ack _ _ _ =>
      exact ⟨{ hrest.books with }, ⟨hrest.supplies.stream, hrest.supplies.fragment⟩,
        hrest.committed⟩

/-! ### The places of an endpoint -/

/-- Neither the places nor the flits received change. -/
structure SamePlaces (e e' : Core F) : Prop where
  placeRX : e'.placeRX = e.placeRX
  placeTX : e'.placeTX = e.placeTX
  serdesInfifo : e'.serdesInfifo = e.serdesInfifo

/-- What a rule does to the places of its endpoint: nothing, or it sends a flit that is right at the
sender's own place and moves that place with it, or it examines one and moves the receiver's. -/
inductive Places (e e' : Core F) : Option (Raw F) → Option (Flit (Raw F)) → Prop
  | quiet : SamePlaces e e' → Places e e' none none
  | send {f : Raw F} : e.placeTX.clean f = true → e'.placeTX = e.placeTX.follow f →
      e'.placeRX = e.placeRX → e'.serdesInfifo = e.serdesInfifo → Places e e' (some f) none
  | examine {x : Flit (Raw F)} {rest : List (Flit (Raw F))} : e.serdesInfifo = x :: rest →
      e'.serdesInfifo = rest → e'.placeTX = e.placeTX →
      e'.placeRX = e.placeRX.follow x.raw → Places e e' none (some x)

theorem places_txHeader {f : Raw F} (h : e.txHeader = some (e', f)) :
    Places e e' (some f) none := by
  obtain ⟨tx, seq, _, rfl, rfl⟩ := Core.txHeader_cases h
  exact .send (clean_control F.header_msb seq) (follow_header seq).symm rfl rfl

theorem places_txACK {f : Raw F} (h : e.txACK = some (e', f)) : Places e e' (some f) none := by
  obtain ⟨a, rest, _, rfl, rfl⟩ := Core.txACK_cases h
  exact .send (clean_control F.ack_msb a) (follow_control F.ack_msb F.ack_ne_header a).symm rfl rfl

theorem places_txSend (hs : Sending e) {f : Raw F} (h : e.txSend = some (e', f)) :
    Places e e' (some f) none := by
  obtain ⟨tx, d, htx, rfl, rfl⟩ := Core.txSend_cases h
  obtain ⟨hbusy, hd, _⟩ := Sender.txSend_cases htx
  have hlow := fun hlast => hs.data_low hbusy hd hlast
  exact .send (clean_packFragment (t := e.placeTX) hlow)
    (follow_packFragment (t := e.placeTX) hlow).symm rfl rfl

/-- **The rules that the drivers have in common** send only what is right at the sender's place. -/
theorem places_shared (hs : Sending e) (r : SharedRule F) (h : r.rule e = some (e', out)) :
    Places e e' out none := by
  cases shared_does r h with
  | quiet hsame =>
    refine .quiet ⟨?_, ?_, hsame.serdesInfifo⟩
    · rw [Core.placeRX, Core.placeRX, hsame.receive.fragmentNumberRX, hsame.parityRX]
    · rw [Core.placeTX, Core.placeTX, hsame.fragmentNumberTX, hsame.parityTX]
  | rxDone hdone =>
    obtain ⟨_, rfl⟩ := Core.rxDone_cases hdone
    exact .quiet ⟨rfl, rfl, rfl⟩
  | txSend ht => exact places_txSend hs ht

/-! ### The receive rule -/

theorem SamePlaces.trans {e'' : Core F} (h : SamePlaces e e') (h' : SamePlaces e' e'') :
    SamePlaces e e'' :=
  ⟨h'.placeRX.trans h.placeRX, h'.placeTX.trans h.placeTX, h'.serdesInfifo.trans h.serdesInfifo⟩

theorem samePlaces_enqAck {seq : ℕ} (h : e.enqAck seq = some e') : SamePlaces e e' := by
  rw [Core.enqAck_cases h]
  exact ⟨rfl, rfl, rfl⟩

/-- What a payload flit without error writes besides leaves the places as they are. -/
theorem samePlaces_acceptFragment {data : Data F} {r : Core F}
    (h : Core.acceptFragment data e e' = some r) : SamePlaces e' r := by
  obtain ⟨e₁, he₁, hlast⟩ := Option.bind_eq_some_iff.mp h
  have hfirst : SamePlaces e' e₁ := by
    by_cases hf : e.fresh = true
    · rw [if_pos hf] at he₁
      obtain ⟨_, rfl⟩ := Core.enqFragment_cases he₁
      exact ⟨rfl, rfl, rfl⟩
    · rw [if_neg hf] at he₁
      obtain rfl := Option.some.inj he₁
      exact ⟨rfl, rfl, rfl⟩
  by_cases hend : F.frameCounter.isLast e.provisionalFramePositionRX = true
  · rw [if_pos hend] at hlast
    exact hfirst.trans (samePlaces_enqAck hlast)
  · rw [if_neg hend] at hlast
    obtain rfl := Option.some.inj hlast
    exact hfirst

/-- A payload flit moves the receiver's place. -/
theorem placeRX_nextFragment {x : Flit (Raw F)} (hpay : ctrlOf x.raw = payload) :
    (e.nextFragment x).placeRX = e.placeRX.follow x.raw := by
  have hkind : kind x.raw = .payload := by simp [kind, hpay]
  rw [Place.follow, hkind]
  change _ = if e.endsGroup then (⟨0, hashOf x.raw⟩ : Place)
    else ⟨F.fragmentCounter.succ e.fragmentNumberRX, e.hashRX x.raw⟩
  rw [Core.placeRX, Core.nextFragment]
  cases e.endsGroup with
  | true => rfl
  | false => rfl

theorem placeRX_newFrame {x : Flit (Raw F)} {err : Bool} (hkind : kind x.raw = .header) (t : Place) :
    (e.newFrame x err).placeRX = t.follow x.raw := by
  rw [Place.follow, hkind]
  rfl

end Grouped

end Aurora

end LeapPlatforms
