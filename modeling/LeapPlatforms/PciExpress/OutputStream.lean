import LeapPlatforms.PciExpress.PacketPipe

/-!
# The messages that the driver sends

Several rules put beats into `beatsOut`, each under a guard of its own. Whatever the model, the host
and the order of the rules, what comes out is one whole message after another.

## Main definitions

* `payloadBeats`, `Out.isHead`, `Out.follows` — which beats make up a message
* `driver` — the runs of a driver
* `InOrder` — where the driver is in a message

## Main results

* `InOrder.step`, `inOrder_of_reachable`
* `output_messages`
-/

namespace LeapPlatforms

namespace PciExpress

namespace BlueNoC

open Messages (Complete Open)

variable {P : Params}

/-! ### Messages -/

/-- The beats that follow a header: what is left of its length fills them. -/
def payloadBeats (out : Out P) : ℕ :=
  (lengthOf out.beat - P.headerDataBytes + P.beatBytes - 1) / P.beatBytes

/-- A beat that begins a message. -/
def Out.isHead (out : Out P) : Prop :=
  out.producer = .start ∨ out.producer = .timeout ∨ out.producer = .debug

/-- A beat that continues a message: chunks follow where a packet is sent, the history follows the
answer to a debug request, and nothing follows a flush. -/
def Out.follows (head out : Out P) : Prop :=
  (head.producer = .start ∧ out.producer = .chunk) ∨
    (head.producer = .debug ∧ out.producer = .history)

theorem payloadBeats_eq {out : Out P} {k : ℕ}
    (h : lengthOf out.beat - P.headerDataBytes = k * P.beatBytes) : payloadBeats out = k := by
  have hpos := beatBytes_pos (P := P)
  rw [payloadBeats, h, Nat.add_sub_assoc hpos, Nat.mul_comm, Nat.mul_add_div hpos,
    Nat.div_eq_of_lt (by omega), Nat.add_zero]

/-! ### Debug messages -/

/-- The length of a debug response is set, whatever is set after the 32 bits it is in. -/
theorem lengthOf_setField {w : ℕ} (beat : Beat P) (lo : ℕ) (v : BitVec w)
    (h : lo + w ≤ 16 ∨ 24 ≤ lo) : lengthOf (setField beat lo v) = lengthOf beat := by
  have hwidth := width_ge (P := P)
  rw [lengthOf, lengthOf, extractLsb'_setField_of_disjoint _ _ _ (by omega) (by omega)]

theorem lengthOf_setField_length (beat : Beat P) (v : BitVec 8) :
    lengthOf (setField beat 16 v) = v.toNat := by
  have hwidth := width_ge (P := P)
  rw [lengthOf, extractLsb'_setField _ _ _ (by omega)]

theorem lengthOf_debugBeat (beat : Beat P) : lengthOf (Driver.debugBeat beat) = 4 := by
  rw [Driver.debugBeat, lengthOf_setField _ _ _ (Or.inr (by decide)), lengthOf_setField_length]
  rfl

/-- What `debug` does: it answers in one beat, or it begins a message of two. -/
theorem debug_eq_some {s e : Driver P} {out : Out P} (h : s.debug = some (e, out)) :
    (s.remBytesOut = 0 ∧ s.inDebugPacket = false) ∧ out.producer = .debug ∧
      ((payloadBeats out = 0 ∧ e.remBytesOut = s.remBytesOut ∧
          e.inDebugPacket = s.inDebugPacket ∧ e.historyRsp = s.historyRsp) ∨
        (payloadBeats out = 1 ∧ e.remBytesOut = s.remBytesOut ∧ e.inDebugPacket = true ∧
          ∃ hist, e.historyRsp = s.historyRsp ++ [hist])) := by
  have hshort : ∀ b : Beat P, lengthOf b = 4 →
      payloadBeats (P := P) { beat := b, producer := .debug } = 0 := by
    intro b hb
    refine payloadBeats_eq ?_
    show lengthOf b - _ = _
    rw [hb, Params.headerDataBytes]
    rcases P.beatBytes_eq with h | h <;> rw [h]
  have hlong : ∀ b : Beat P, lengthOf b = (BitVec.ofNat 8 (2 * P.beatBytes - 4)).toNat →
      payloadBeats (P := P) { beat := b, producer := .debug } = 1 := by
    intro b hb
    refine payloadBeats_eq ?_
    show lengthOf b - _ = _
    rw [hb, Params.headerDataBytes]
    rcases P.beatBytes_eq with h | h <;> rw [h] <;> rfl
  rw [Driver.debug] at h
  split at h
  · cases h
  · next beat rest hq =>
    split at h
    · next hc =>
      refine ⟨⟨hc.2.1, hc.2.2.2.1⟩, ?_⟩
      split at h
      · obtain ⟨rfl, rfl⟩ := Prod.mk.inj (Option.some.inj h)
        refine ⟨rfl, Or.inl ⟨hshort _ ?_, rfl, rfl, rfl⟩⟩
        rw [lengthOf_setField _ _ _ (Or.inr (by decide)),
          lengthOf_setField _ _ _ (Or.inr (by decide)),
          lengthOf_setField _ _ _ (Or.inr (by decide)),
          lengthOf_setField _ _ _ (Or.inr (by decide)), lengthOf_debugBeat]
      · split at h
        · obtain ⟨rfl, rfl⟩ := Prod.mk.inj (Option.some.inj h)
          refine ⟨rfl, Or.inr ⟨hlong _ ?_, rfl, rfl, _, rfl⟩⟩
          split
          · rw [lengthOf_setField _ _ _ (Or.inr (by decide)), lengthOf_setField_length]
          · rw [lengthOf_setField_length]
        · obtain ⟨rfl, rfl⟩ := Prod.mk.inj (Option.some.inj h)
          exact ⟨rfl, Or.inl ⟨hshort _ (lengthOf_debugBeat beat), rfl, rfl, rfl⟩⟩
    · cases h

/-! ### Runs -/

variable (P) in
/-- The runs of a driver, with the beats that it sent. -/
def driver : TransitionSystem (Driver P × List (Out P)) where
  init s := s = (.reset P, [])
  step s t := ∃ r out, rule r s.1 = some (t.1, out) ∧ t.2 = s.2 ++ out.toList

/-- Where a driver is that has sent `l`. -/
inductive InOrder (s : Driver P) (l : List (Out P)) : Prop
  /-- Between two messages. -/
  | between : s.remBytesOut = 0 → s.inDebugPacket = false → s.historyRsp = [] →
      Complete payloadBeats Out.isHead Out.follows l → InOrder s l
  /-- In a message with chunks: as many are to come as `remBytesOut` says. -/
  | chunks (k : ℕ) (h : Out P) (payload : List (Out P)) :
      s.remBytesOut = (k + 1) * P.beatBytes → s.inDebugPacket = false → s.historyRsp = [] →
      Open payloadBeats Out.isHead Out.follows l h payload → h.producer = .start →
      payload.length + (k + 1) = payloadBeats h → InOrder s l
  /-- In a debug message: the history entry is being read. -/
  | history (hist : Beat P) (h : Out P) :
      s.remBytesOut = 0 → s.inDebugPacket = true → s.historyRsp = [hist] →
      Open payloadBeats Out.isHead Out.follows l h [] → h.producer = .debug → payloadBeats h = 1 →
      InOrder s l

namespace InOrder

variable {s e : Driver P} {l : List (Out P)} {out : Out P}

/-- Only three registers say where a driver is. -/
theorem congr (h : InOrder s l) (hrem : e.remBytesOut = s.remBytesOut)
    (hdebug : e.inDebugPacket = s.inDebugPacket) (hrsp : e.historyRsp = s.historyRsp) :
    InOrder e l := by
  cases h with
  | between h₁ h₂ h₃ hl => exact .between (hrem.trans h₁) (hdebug.trans h₂) (hrsp.trans h₃) hl
  | chunks k h payload h₁ h₂ h₃ hl hp hlen =>
    exact .chunks k h payload (hrem.trans h₁) (hdebug.trans h₂) (hrsp.trans h₃) hl hp hlen
  | history hist h h₁ h₂ h₃ hl hp hlen =>
    exact .history hist h (hrem.trans h₁) (hdebug.trans h₂) (hrsp.trans h₃) hl hp hlen

/-- The guard that a message is not begun inside another. -/
theorem complete (h : InOrder s l) (hzero : s.remBytesOut = 0) (hdebug : s.inDebugPacket = false) :
    s.historyRsp = [] ∧ Complete payloadBeats Out.isHead Out.follows l := by
  cases h with
  | between _ _ h₃ hl => exact ⟨h₃, hl⟩
  | chunks k _ _ h₁ =>
    have hpos := beatBytes_pos (P := P)
    rw [hzero, Nat.succ_mul] at h₁
    omega
  | history _ _ _ h₂ =>
    rw [hdebug] at h₂
    cases h₂

theorem start (h : InOrder s l) (ht : s.startBlueNoCPacketToHost = some (e, out)) :
    InOrder e (l ++ [out]) := by
  obtain ⟨first, rest, flags, _, ⟨hzero, hdebug⟩, _, hbeat, hproducer, rfl⟩ := start_eq_some ht
  obtain ⟨hrsp, hl⟩ := h.complete hzero hdebug
  have hlt := message_lt (P := P) (Nat.min_le_right (umfChunks first s) P.maxChunksPerPacket)
  have hbeats : payloadBeats out = min (umfChunks first s) P.maxChunksPerPacket := by
    refine payloadBeats_eq ?_
    rw [hbeat, lengthOf_headerBeat, BitVec.toNat_ofNat, Nat.mod_eq_of_lt hlt, Nat.add_sub_cancel]
  rcases Nat.eq_zero_or_pos (min (umfChunks first s) P.maxChunksPerPacket) with hnone | hsome
  · refine .between ?_ hdebug hrsp (hl.header (Or.inl hproducer) (hbeats.trans hnone))
    show min (umfChunks first s) P.maxChunksPerPacket * P.beatBytes = 0
    rw [hnone, Nat.zero_mul]
  · refine .chunks (payloadBeats out - 1) out [] ?_ hdebug hrsp
      (hl.begin (Or.inl hproducer) (hbeats ▸ hsome)) hproducer ?_
    · show min (umfChunks first s) P.maxChunksPerPacket * P.beatBytes = _
      rw [← hbeats, Nat.sub_add_cancel (hbeats ▸ hsome)]
    · rw [List.length_nil, Nat.zero_add, Nat.sub_add_cancel (hbeats ▸ hsome)]

theorem fwdChunk (h : InOrder s l) (ht : s.fwdChunkToHost = some (e, out)) :
    InOrder e (l ++ [out]) := by
  obtain ⟨chunk, rest, _, hne, rfl, rfl⟩ := fwdChunkToHost_eq_some ht
  cases h with
  | between h₁ => exact absurd h₁ hne
  | history _ _ h₁ => exact absurd h₁ hne
  | chunks k h payload h₁ h₂ h₃ hl hp hlen =>
    have hrem : s.remBytesOut - P.beatBytes = k * P.beatBytes := by
      rw [h₁, Nat.succ_mul, Nat.add_sub_cancel]
    cases k with
    | zero =>
      refine .between ?_ h₂ h₃ (hl.finish (Or.inl ⟨hp, rfl⟩) hlen)
      rw [Nat.zero_mul] at hrem
      exact hrem
    | succ k =>
      refine .chunks k h (payload ++ [_]) hrem h₂ h₃ (hl.next (Or.inl ⟨hp, rfl⟩) (by omega)) hp ?_
      rw [List.length_append, List.length_singleton]
      omega

theorem timeout (h : InOrder s l) {o : Option (Out P)} (ht : s.triggerTimeout = some (e, o)) :
    InOrder e (l ++ o.toList) := by
  rw [Driver.triggerTimeout] at ht
  split at ht
  · next hc =>
    obtain ⟨rfl, rfl⟩ := Prod.mk.inj (Option.some.inj ht)
    obtain ⟨hrsp, hl⟩ := h.complete hc.2.1 hc.2.2.1
    split
    · refine .between hc.2.1 hc.2.2.1 hrsp (hl.header (Or.inr (Or.inl rfl)) (payloadBeats_eq ?_))
      show lengthOf (P := P) (headerBeat 0 1 0 4 0) - _ = 0 * _
      rw [lengthOf_headerBeat, Nat.zero_mul]
      exact Nat.zero_sub _
    · rw [Option.toList_none, List.append_nil]
      exact h.congr rfl rfl rfl
  · cases ht

theorem debug (h : InOrder s l) (ht : s.debug = some (e, out)) : InOrder e (l ++ [out]) := by
  obtain ⟨⟨hzero, hdebug⟩, hproducer, hcases⟩ := debug_eq_some ht
  obtain ⟨hrsp, hl⟩ := h.complete hzero hdebug
  have hhead : out.isHead := Or.inr (Or.inr hproducer)
  rcases hcases with ⟨hlen, h₁, h₂, h₃⟩ | ⟨hlen, h₁, h₂, hist, h₃⟩
  · exact .between (h₁.trans hzero) (h₂.trans hdebug) (h₃.trans hrsp) (hl.header hhead hlen)
  · refine .history hist out (h₁.trans hzero) h₂ ?_ (hl.begin hhead (by omega)) hproducer hlen
    rw [h₃, hrsp, List.nil_append]

theorem fwdHistory (h : InOrder s l) (ht : s.fwdHistoryFromHost = some (e, out)) :
    InOrder e (l ++ [out]) := by
  rw [Driver.fwdHistoryFromHost] at ht
  split at ht
  · cases ht
  · next hist rest hq =>
    split at ht
    · next hzero =>
      obtain ⟨rfl, rfl⟩ := Prod.mk.inj (Option.some.inj ht)
      cases h with
      | between _ _ h₃ =>
        rw [h₃] at hq
        cases hq
      | chunks _ _ _ _ _ h₃ =>
        rw [h₃] at hq
        cases hq
      | history _ h _ _ h₃ hl hp hlen =>
        rw [h₃] at hq
        obtain ⟨_, rfl⟩ := List.cons.inj hq
        exact .between hzero rfl rfl (hl.finish (Or.inr ⟨hp, rfl⟩) (by rw [hlen]; rfl))
    · cases ht

/-- **Every rule** sends what belongs where the driver is. -/
theorem step {r : Rule P} {o : Option (Out P)} (h : InOrder s l) (hr : rule r s = some (e, o)) :
    InOrder e (l ++ o.toList) := by
  cases r with
  | arrive beat =>
    obtain ⟨rfl, rfl⟩ := Prod.mk.inj (Option.some.inj hr)
    rw [Option.toList_none, List.append_nil]
    exact h.congr rfl rfl rfl
  | write chunk =>
    obtain ⟨ht, rfl⟩ := silent_eq_some.mp hr
    rw [Option.toList_none, List.append_nil]
    rw [Driver.write] at ht
    split at ht
    · obtain rfl := Option.some.inj ht
      exact h.congr rfl rfl rfl
    · cases ht
  | read =>
    obtain ⟨ht, rfl⟩ := silent_eq_some.mp hr
    rw [Option.toList_none, List.append_nil]
    rw [Driver.read] at ht
    split at ht
    · cases ht
    · obtain rfl := Option.some.inj ht
      exact h.congr rfl rfl rfl
  | connect =>
    obtain ⟨ht, rfl⟩ := silent_eq_some.mp hr
    rw [Option.toList_none, List.append_nil]
    rw [Driver.connect] at ht
    split at ht
    · cases ht
    · split at ht
      · obtain rfl := Option.some.inj ht
        exact h.congr rfl rfl rfl
      · cases ht
  | initFromHost =>
    obtain ⟨ht, rfl⟩ := silent_eq_some.mp hr
    rw [Option.toList_none, List.append_nil]
    rw [Driver.initFromHost] at ht
    split at ht
    · cases ht
    · split at ht
      · obtain rfl := Option.some.inj ht
        exact h.congr rfl rfl rfl
      · cases ht
  | processHeaderFromHost =>
    obtain ⟨ht, rfl⟩ := silent_eq_some.mp hr
    rw [Option.toList_none, List.append_nil]
    obtain ⟨_, _, _, _, _, rfl⟩ := processHeader_eq_some ht
    exact h.congr rfl rfl rfl
  | fwdChunkFromHost =>
    obtain ⟨ht, rfl⟩ := silent_eq_some.mp hr
    rw [Option.toList_none, List.append_nil]
    obtain ⟨_, _, _, _, _, rfl⟩ := fwdChunkFromHost_eq_some ht
    exact h.congr rfl rfl rfl
  | startBlueNoCPacketToHost =>
    obtain ⟨_, ht, rfl⟩ := sends_eq_some.mp hr
    exact h.start ht
  | fwdChunkToHost =>
    obtain ⟨_, ht, rfl⟩ := sends_eq_some.mp hr
    exact h.fwdChunk ht
  | triggerTimeout => exact h.timeout hr
  | debug =>
    obtain ⟨_, ht, rfl⟩ := sends_eq_some.mp hr
    exact h.debug ht
  | fwdHistoryFromHost =>
    obtain ⟨_, ht, rfl⟩ := sends_eq_some.mp hr
    exact h.fwdHistory ht

end InOrder

theorem inOrder_of_reachable {s : Driver P × List (Out P)} (h : (driver P).Reachable s) :
    InOrder s.1 s.2 := by
  refine h.invariant (P := fun s => InOrder s.1 s.2) ?_ ?_
  · rintro s rfl
    exact .between rfl rfl rfl Messages.complete_nil
  · rintro s t hs ⟨r, o, hr, ht⟩
    rw [ht]
    exact hs.step hr

/-- **The output stream.** In every reachable state the beats sent are whole messages, each a header
and as many beats as its length asks for, from the rule that continues what the header began; at
most the last one is not complete. -/
theorem output_messages (P : Params) (s : Driver P × List (Out P)) (h : (driver P).Reachable s) :
    ∃ whole last, s.2 = whole ++ last ∧
      Complete payloadBeats Out.isHead Out.follows whole ∧
      (last = [] ∨ ∃ head payload, last = head :: payload ∧ head.isHead ∧
        payload.length < payloadBeats head ∧ ∀ out ∈ payload, head.follows out) := by
  have hopen : ∀ {head payload}, Open payloadBeats Out.isHead Out.follows s.2 head payload →
      ∃ whole last, s.2 = whole ++ last ∧ Complete payloadBeats Out.isHead Out.follows whole ∧
        (last = [] ∨ ∃ head payload, last = head :: payload ∧ head.isHead ∧
          payload.length < payloadBeats head ∧ ∀ out ∈ payload, head.follows out) := by
    rintro head payload ⟨whole, hwhole, hl, hhead, hlen, hfits⟩
    exact ⟨whole, head :: payload, hl, hwhole, Or.inr ⟨head, payload, rfl, hhead, hlen, hfits⟩⟩
  cases inOrder_of_reachable h with
  | between _ _ _ hl => exact ⟨s.2, [], (List.append_nil _).symm, hl, Or.inl rfl⟩
  | chunks _ _ _ _ _ _ hl => exact hopen hl
  | history _ _ _ _ _ hl => exact hopen hl

/-! ### A run -/

/-- What a rule makes of a driver and the beats that it sent. -/
def fire (s : Driver P × List (Out P)) (r : Rule P) : Option (Driver P × List (Out P)) :=
  (rule r s.1).map fun (d, out) => (d, s.2 ++ out.toList)

/-- What rules reach is reachable. -/
theorem fire_reachable {s t : Driver P × List (Out P)} {rs : List (Rule P)}
    (hs : (driver P).Reachable s) (h : rs.foldlM fire s = some t) : (driver P).Reachable t := by
  induction rs generalizing s with
  | nil =>
    obtain rfl := Option.some.inj h
    exact hs
  | cons r rs ih =>
    rw [List.foldlM_cons] at h
    obtain ⟨s', hfire, hrest⟩ := Option.bind_eq_some_iff.mp h
    obtain ⟨⟨d, out⟩, hr, rfl⟩ := Option.map_eq_some_iff.mp hfire
    exact ih (hs.step ⟨r, out, hr, rfl⟩) hrest

/-- The host's first beat; a debug request, which is answered; and a packet of two chunks, of which
one is sent. -/
def sampleRules : List (Rule sampleParams) :=
  [.arrive 0, .initFromHost, .arrive 0x4ff, .write 0x2, .write 0x11, .debug, .connect, .connect,
    .startBlueNoCPacketToHost, .fwdChunkToHost]

theorem output_messages_sample : ∃ s : Driver sampleParams × List (Out sampleParams),
    (driver sampleParams).Reachable s ∧ s.2.map Out.producer = [.debug, .start, .chunk] ∧
      ∃ whole last, s.2 = whole ++ last ∧
        Complete payloadBeats Out.isHead Out.follows whole ∧
        (last = [] ∨ ∃ head payload, last = head :: payload ∧ head.isHead ∧
          payload.length < payloadBeats head ∧ ∀ out ∈ payload, head.follows out) := by
  have hrun : (sampleRules.foldlM fire (Driver.reset sampleParams, [])).map
      (fun s => s.2.map Out.producer) = some [.debug, .start, .chunk] := by
    decide +kernel
  obtain ⟨s, hs, hproducers⟩ := Option.map_eq_some_iff.mp hrun
  have hreach := fire_reachable (.init rfl) hs
  exact ⟨s, hreach, hproducers, output_messages sampleParams s hreach⟩

end BlueNoC

end PciExpress

end LeapPlatforms
