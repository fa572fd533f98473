import LeapPlatforms.PciExpress.Packets

/-!
# UMF packets from one driver to another

One driver sends to another, and chunks that the model writes to the first come to the model of the
second. The sender counts the bytes that the receiver waits for, so after every beat both agree on
where the next message begins.

## Main definitions

* `Pipe`, `pipe` — a sender, a receiver, and the runs of both
* `Linked` — what holds between them
* `RoundTrip`

## Main results

* `linked_of_reachable`
* `Linked.dec_empty`, `Linked.enc_empty` — what is left where nothing happens any more
* `round_trip`
-/

namespace LeapPlatforms

namespace PciExpress

namespace BlueNoC

open Messages (remaining remaining_append le_length_of_remaining)

variable {P : Params}

/-! ### Two drivers -/

variable (P) in
/-- A sending driver and a receiving one. -/
structure Pipe where
  /-- The sender. -/
  enc : Driver P
  /-- The receiver. -/
  dec : Driver P
  /-- What the sender's model wrote. -/
  given : List (Beat P)
  /-- What the receiver's model read. -/
  received : List (Beat P)

/-- The rules that send UMF packets. -/
def Rule.toHost : Rule P → Bool
  | .connect | .startBlueNoCPacketToHost | .fwdChunkToHost => true
  | _ => false

/-- The rules that receive them. -/
def Rule.fromHost : Rule P → Bool
  | .processHeaderFromHost | .fwdChunkFromHost => true
  | _ => false

namespace Pipe

/-- What becomes of chunks already written. -/
inductive Work : Pipe P → Pipe P → Prop
  /-- The sender fires; its beat is in the receiver's queue. -/
  | send (p : Pipe P) (r : Rule P) (e : Driver P) (out : Option (Out P)) : r.toHost = true →
      rule r p.enc = some (e, out) →
      Work p { p with
        enc := e
        dec := { p.dec with beatsIn := p.dec.beatsIn ++ (out.map Out.beat).toList } }
  /-- The receiver fires. -/
  | take (p : Pipe P) (r : Rule P) (d : Driver P) (out : Option (Out P)) : r.fromHost = true →
      rule r p.dec = some (d, out) → Work p { p with dec := d }
  /-- The receiver's model reads. -/
  | read (p : Pipe P) (chunk : Beat P) (d : Driver P) : p.dec.fromHostSyncQ.head? = some chunk →
      p.dec.read = some d → Work p { p with dec := d, received := p.received ++ [chunk] }

/-- A step: the sender's model writes, or something becomes of what it wrote. -/
inductive Step : Pipe P → Pipe P → Prop
  | write (p : Pipe P) (chunk : Beat P) (e : Driver P) : p.enc.write chunk = some e →
      Step p { p with enc := e, given := p.given ++ [chunk] }
  | work {p q : Pipe P} : Work p q → Step p q

end Pipe

/-- A driver after the host's first beat. -/
def Driver.initialised (waitForFullPacket : Bool) (maxTimeout : ℕ) : Driver P :=
  { Driver.reset P with
    initDone := true, waitForFullPacket := waitForFullPacket, maxTimeout := maxTimeout }

variable (P) in
/-- The runs of two drivers, whatever the host set in either. -/
def pipe : TransitionSystem (Pipe P) where
  init p := ∃ w w' t t', p =
    { enc := .initialised w t, dec := .initialised w' t', given := [], received := [] }
  step := Pipe.Step

/-! ### What holds between them -/

/-- A sender and a receiver: where every chunk is, and where the next message begins. -/
structure Linked (p : Pipe P) : Prop where
  /-- Both drivers are initialised. -/
  init : p.enc.initDone = true ∧ p.dec.initDone = true
  /-- The sender does not answer a debug request. -/
  quiet : p.enc.inDebugPacket = false
  /-- The chunks that were sent are those read, in the receiver's queue, or in beats. -/
  chunks : ∃ taken, p.given = taken ++ p.enc.toHostCountedQ ++ p.enc.toHostSyncQ ∧
    remaining numChunks 0 taken = p.enc.remChunksOut ∧
    p.received ++ p.dec.fromHostSyncQ ++ decoded p.dec.remBytesIn p.dec.beatsIn = wire 0 taken
  /-- After the beats on the way the receiver waits for what the sender still has to send. -/
  bytes_eq : bytes p.dec.remBytesIn p.dec.beatsIn = p.enc.remBytesOut
  /-- The beats on the way. -/
  sound : Sound p.dec.remBytesIn p.dec.beatsIn
  /-- The sender counts whole beats, of a packet that has as many. -/
  out : ∃ k ≤ P.maxChunksPerPacket, p.enc.remBytesOut = k * P.beatBytes ∧ k ≤ p.enc.remChunksOut
  /-- The receiver counts whole beats. -/
  remBytesIn : ∃ k ≤ P.maxChunksPerPacket, p.dec.remBytesIn = k * P.beatBytes
  /-- The counter of the chunks of a packet. -/
  remChunksOut_lt : p.enc.remChunksOut < 2 ^ P.lengthBits
  /-- The queue behind the clock crossing. -/
  counted : p.enc.toHostCountedQ.length ≤ P.countedDepth

namespace Linked

variable {p q : Pipe P} {e : Driver P} {chunk : Beat P} {out : Out P}

theorem write (h : Linked p) (ht : p.enc.write chunk = some e) :
    Linked { p with enc := e, given := p.given ++ [chunk] } := by
  rw [Driver.write] at ht
  split at ht
  · obtain rfl := Option.some.inj ht
    obtain ⟨taken, hgiven, hrest⟩ := h.chunks
    exact { h with chunks := ⟨taken, by rw [hgiven, List.append_assoc], hrest⟩ }
  · cases ht

theorem connect (h : Linked p) (ht : p.enc.connect = some e) : Linked { p with enc := e } := by
  rw [Driver.connect] at ht
  split at ht
  · cases ht
  · next c rest hq =>
    split at ht
    · next hlt =>
      obtain rfl := Option.some.inj ht
      obtain ⟨taken, hgiven, hrest⟩ := h.chunks
      refine { h with chunks := ⟨taken, ?_, hrest⟩, counted := ?_ }
      · rw [hgiven, hq]
        simp
      · show (p.enc.toHostCountedQ ++ [c]).length ≤ _
        rw [List.length_append, List.length_singleton]
        exact hlt
    · cases ht

/-- A message begins. -/
theorem start (h : Linked p) (ht : p.enc.startBlueNoCPacketToHost = some (e, out)) :
    Linked { p with enc := e, dec := { p.dec with beatsIn := p.dec.beatsIn ++ [out.beat] } } := by
  obtain ⟨first, rest, flags, hq, ⟨hzero, _⟩, hflags, hbeat, _, rfl⟩ := start_eq_some ht
  obtain ⟨taken, hgiven, hremaining, hwire⟩ := h.chunks
  have hmin : min (umfChunks first p.enc) P.maxChunksPerPacket ≤ P.maxChunksPerPacket :=
    Nat.min_le_right _ _
  have hlt := message_lt (P := P) hmin
  have hlength : lengthOf out.beat =
      min (umfChunks first p.enc) P.maxChunksPerPacket * P.beatBytes + P.headerDataBytes := by
    rw [hbeat, lengthOf_headerBeat, BitVec.toNat_ofNat, Nat.mod_eq_of_lt hlt]
  have hnext := h.bytes_eq.trans hzero
  refine { h with chunks := ?_, bytes_eq := ?_, sound := ?_, out := ?_, remChunksOut_lt := ?_
                  counted := ?_ }
  · -- the receiver finds the UMF header where the sender put one
    have hchunks : chunksOf (bytes p.dec.remBytesIn p.dec.beatsIn) out.beat =
        if p.enc.remChunksOut = 0 then [cleared first] else [] := by
      rw [chunksOf, if_pos hnext, hbeat, isContinuation_headerBeat, umfHeaderOf_headerBeat, hflags,
        cleared]
      by_cases hstart : p.enc.remChunksOut = 0 <;> simp [hstart]
    by_cases hstart : p.enc.remChunksOut = 0
    · rw [if_pos hstart] at hchunks
      refine ⟨taken ++ [first], ?_, ?_, ?_⟩
      · rw [hgiven, hq]
        simp [hstart]
      · rw [remaining_append, hremaining, hstart]
        simp [umfChunks, hstart]
      · rw [decoded_concat, hchunks, ← List.append_assoc, hwire, wire_append,
          hremaining, hstart]
        rfl
    · rw [if_neg hstart] at hchunks
      refine ⟨taken, ?_, ?_, ?_⟩
      · rw [hgiven]
        simp [hstart]
      · rw [hremaining]
        simp [umfChunks, hstart]
      · rw [decoded_concat, hchunks, List.append_nil, hwire]
  · rw [bytes_concat, hnext, bytesAfter, if_pos rfl, hlength, Nat.add_sub_cancel]
  · refine h.sound.concat fun _ => ⟨?_, _, hmin, hlength⟩
    rw [hbeat, destinationOf_headerBeat]
    decide
  · exact ⟨_, hmin, rfl, Nat.min_le_left _ _⟩
  · show umfChunks first p.enc < _
    rw [umfChunks]
    split
    · exact BitVec.isLt _
    · exact h.remChunksOut_lt
  · have hcounted := h.counted
    rw [hq, List.length_cons] at hcounted
    show (if p.enc.remChunksOut = 0 then rest else p.enc.toHostCountedQ).length ≤ _
    split
    · omega
    · exact h.counted

/-- A chunk goes into a message. -/
theorem fwdChunk (h : Linked p) (ht : p.enc.fwdChunkToHost = some (e, out)) :
    Linked { p with enc := e, dec := { p.dec with beatsIn := p.dec.beatsIn ++ [out.beat] } } := by
  obtain ⟨c, rest, hq, hne, rfl, rfl⟩ := fwdChunkToHost_eq_some ht
  obtain ⟨taken, hgiven, hremaining, hwire⟩ := h.chunks
  obtain ⟨k, hk, hbytes, hle⟩ := h.out
  obtain ⟨k, rfl⟩ : ∃ k', k = k' + 1 := by
    refine ⟨k - 1, ?_⟩
    rcases Nat.eq_zero_or_pos k with rfl | hpos
    · rw [Nat.zero_mul] at hbytes
      exact absurd hbytes hne
    · omega
  obtain ⟨m, hm⟩ : ∃ m, p.enc.remChunksOut = m + 1 := ⟨p.enc.remChunksOut - 1, by omega⟩
  have hlt := h.remChunksOut_lt
  have hsub : (p.enc.remChunksOut + 2 ^ P.lengthBits - 1) % 2 ^ P.lengthBits = m := by
    rw [hm, show m + 1 + 2 ^ P.lengthBits - 1 = m + 2 ^ P.lengthBits by omega, Nat.add_mod_right,
      Nat.mod_eq_of_lt (by omega)]
  have hafter : p.enc.remBytesOut - P.beatBytes = k * P.beatBytes := by
    rw [hbytes, Nat.succ_mul, Nat.add_sub_cancel]
  have hcounted := h.counted
  rw [hq, List.length_cons] at hcounted
  have hnext := h.bytes_eq
  refine { h with chunks := ?_, bytes_eq := ?_, sound := ?_, out := ?_, remChunksOut_lt := ?_
                  counted := ?_ }
  · refine ⟨taken ++ [c], ?_, ?_, ?_⟩
    · rw [hgiven, hq]
      simp
    · rw [remaining_append, hremaining, hsub, hm]
      rfl
    · rw [decoded_concat, chunksOf, hnext, if_neg hne, ← List.append_assoc, hwire, wire_append,
        hremaining, hm]
      rfl
  · rw [bytes_concat, hnext, bytesAfter, if_neg hne]
  · exact h.sound.concat fun hz => absurd (hnext.symm.trans hz) hne
  · refine ⟨k, by omega, hafter, ?_⟩
    show k ≤ (p.enc.remChunksOut + 2 ^ P.lengthBits - 1) % 2 ^ P.lengthBits
    omega
  · show (p.enc.remChunksOut + 2 ^ P.lengthBits - 1) % 2 ^ P.lengthBits < _
    omega
  · show rest.length ≤ _
    omega

/-- The receiver takes a header beat. -/
theorem processHeader {d : Driver P} (h : Linked p)
    (ht : p.dec.processHeaderFromHost = some d) : Linked { p with dec := d } := by
  obtain ⟨beat, rest, history, hq, hzero, rfl⟩ := processHeader_eq_some ht
  obtain ⟨taken, hgiven, hremaining, hwire⟩ := h.chunks
  have hbytes := h.bytes_eq
  have hsound := h.sound
  rw [hq, hzero] at hbytes hsound hwire
  obtain ⟨_, k, hk, hlength⟩ := hsound.1 rfl
  refine { h with
    chunks := ⟨taken, hgiven, hremaining, ?_⟩, bytes_eq := hbytes, sound := hsound.2
    remBytesIn := ⟨k, hk, ?_⟩ }
  · rw [decoded] at hwire
    rw [← hwire]
    simp
  · rw [bytesAfter, if_pos rfl, hlength, Nat.add_sub_cancel]

/-- The receiver takes a chunk. -/
theorem fwdChunkFromHost {d : Driver P} (h : Linked p)
    (ht : p.dec.fwdChunkFromHost = some d) : Linked { p with dec := d } := by
  obtain ⟨beat, rest, history, hq, hne, rfl⟩ := fwdChunkFromHost_eq_some ht
  obtain ⟨taken, hgiven, hremaining, hwire⟩ := h.chunks
  obtain ⟨k, hk, hin⟩ := h.remBytesIn
  have hbytes := h.bytes_eq
  have hsound := h.sound
  rw [hq] at hbytes hsound hwire
  refine { h with
    chunks := ⟨taken, hgiven, hremaining, ?_⟩, bytes_eq := hbytes, sound := hsound.2
    remBytesIn := ⟨k - 1, by omega, ?_⟩ }
  · rw [decoded] at hwire
    rw [← hwire]
    simp
  · rw [bytesAfter, if_neg hne, hin, Nat.sub_mul, Nat.one_mul]

theorem work (h : Linked p) (hstep : Pipe.Work p q) : Linked q := by
  cases hstep with
  | send r e out hr hrule =>
    cases r with
    | connect =>
      obtain ⟨ht, rfl⟩ := silent_eq_some.mp hrule
      rw [Option.map_none, Option.toList_none, List.append_nil]
      exact h.connect ht
    | startBlueNoCPacketToHost =>
      obtain ⟨_, ht, rfl⟩ := sends_eq_some.mp hrule
      exact h.start ht
    | fwdChunkToHost =>
      obtain ⟨_, ht, rfl⟩ := sends_eq_some.mp hrule
      exact h.fwdChunk ht
    | _ => cases hr
  | take r d out hr hrule =>
    cases r with
    | processHeaderFromHost =>
      obtain ⟨ht, rfl⟩ := silent_eq_some.mp hrule
      exact h.processHeader ht
    | fwdChunkFromHost =>
      obtain ⟨ht, rfl⟩ := silent_eq_some.mp hrule
      exact h.fwdChunkFromHost ht
    | _ => cases hr
  | read c d hc ht =>
    rw [Driver.read] at ht
    split at ht
    · cases ht
    · next c' rest hq =>
      obtain rfl := Option.some.inj ht
      rw [hq] at hc
      obtain rfl := Option.some.inj hc
      obtain ⟨taken, hgiven, hremaining, hwire⟩ := h.chunks
      refine { h with chunks := ⟨taken, hgiven, hremaining, ?_⟩ }
      rw [← hwire, hq]
      simp

end Linked

theorem linked_of_reachable {p : Pipe P} (h : (pipe P).Reachable p) : Linked p := by
  refine h.invariant (P := Linked) ?_ ?_
  · rintro p ⟨w, w', t, t', rfl⟩
    exact {
      init := ⟨rfl, rfl⟩, quiet := rfl, chunks := ⟨[], rfl, rfl, rfl⟩, bytes_eq := rfl
      sound := trivial, out := ⟨0, Nat.zero_le _, (Nat.zero_mul _).symm, Nat.le_refl _⟩
      remBytesIn := ⟨0, Nat.zero_le _, (Nat.zero_mul _).symm⟩
      remChunksOut_lt := Nat.two_pow_pos _, counted := Nat.zero_le _ }
  · intro p q hp hstep
    cases hstep with
    | write chunk e ht => exact hp.write ht
    | work hwork => exact hp.work hwork

/-! ### Progress -/

/-- How much is left to do with what was written. -/
def Pipe.work (p : Pipe P) : ℕ :=
  8 * p.enc.toHostSyncQ.length + 7 * p.enc.toHostCountedQ.length +
    (if p.enc.remBytesOut = 0 then 3 else 0) + 2 * p.dec.beatsIn.length + p.dec.fromHostSyncQ.length

/-- The sender's part of that. -/
def Driver.toSend (s : Driver P) : ℕ :=
  8 * s.toHostSyncQ.length + 7 * s.toHostCountedQ.length + if s.remBytesOut = 0 then 3 else 0

/-- The receiver's part. -/
def Driver.toTake (s : Driver P) : ℕ := 2 * s.beatsIn.length + s.fromHostSyncQ.length

/-- Every rule of the sender leaves less to do, also for the beat that it sends. -/
theorem toSend_lt {s e : Driver P} {r : Rule P} {out : Option (Out P)} (hr : r.toHost = true)
    (hrule : rule r s = some (e, out)) : e.toSend + 2 * out.toList.length < s.toSend := by
  cases r with
  | connect =>
    obtain ⟨ht, rfl⟩ := silent_eq_some.mp hrule
    rw [Driver.connect] at ht
    split at ht
    · cases ht
    · next c rest hq =>
      split at ht
      · obtain rfl := Option.some.inj ht
        simp only [Driver.toSend, hq, List.length_cons, List.length_append, List.length_nil,
          Option.toList_none]
        omega
      · cases ht
  | startBlueNoCPacketToHost =>
    obtain ⟨_, ht, rfl⟩ := sends_eq_some.mp hrule
    obtain ⟨first, rest, _, hq, ⟨hzero, _⟩, _, _, _, rfl⟩ := start_eq_some ht
    have hpos := beatBytes_pos (P := P)
    have hmax := maxChunksPerPacket_pos (P := P)
    simp only [Driver.toSend, hzero, if_true, Option.toList_some, List.length_singleton]
    by_cases hstart : s.remChunksOut = 0
    · rw [if_pos hstart, hq, List.length_cons]
      split <;> omega
    · -- a message that continues a packet has chunks
      have hne : ¬ min (umfChunks first s) P.maxChunksPerPacket * P.beatBytes = 0 := by
        rw [umfChunks, if_neg hstart, Nat.mul_eq_zero]
        omega
      rw [if_neg hstart, if_neg hne]
      omega
  | fwdChunkToHost =>
    obtain ⟨_, ht, rfl⟩ := sends_eq_some.mp hrule
    obtain ⟨c, rest, hq, hne, rfl, rfl⟩ := fwdChunkToHost_eq_some ht
    simp only [Driver.toSend, hq, List.length_cons, Option.toList_some, List.length_nil]
    rw [if_neg hne]
    split <;> omega
  | _ => cases hr

/-- A beat holds one chunk at most. -/
theorem length_chunksOf_le (r : ℕ) (beat : Beat P) : (chunksOf r beat).length ≤ 1 := by
  rw [chunksOf]
  split
  · split <;> simp
  · simp

/-- Every rule of the receiver leaves less to do. -/
theorem toTake_lt {s d : Driver P} {r : Rule P} {out : Option (Out P)} (hr : r.fromHost = true)
    (hrule : rule r s = some (d, out)) : d.toTake < s.toTake := by
  cases r with
  | processHeaderFromHost =>
    obtain ⟨ht, rfl⟩ := silent_eq_some.mp hrule
    obtain ⟨beat, rest, _, hq, _, rfl⟩ := processHeader_eq_some ht
    have := length_chunksOf_le 0 beat
    simp only [Driver.toTake, hq, List.length_cons, List.length_append]
    omega
  | fwdChunkFromHost =>
    obtain ⟨ht, rfl⟩ := silent_eq_some.mp hrule
    obtain ⟨beat, rest, _, hq, _, rfl⟩ := fwdChunkFromHost_eq_some ht
    have := length_chunksOf_le s.remBytesIn beat
    simp only [Driver.toTake, hq, List.length_cons, List.length_append]
    omega
  | _ => cases hr

theorem Pipe.work_eq (p : Pipe P) : p.work = p.enc.toSend + p.dec.toTake := by
  rw [Pipe.work, Driver.toSend, Driver.toTake]
  omega

/-- Every step but a write leaves less to do. -/
theorem Pipe.Work.work_lt {p q : Pipe P} (h : Pipe.Work p q) : q.work < p.work := by
  rw [Pipe.work_eq, Pipe.work_eq]
  cases h with
  | send r e out hr hrule =>
    have hlt := toSend_lt hr hrule
    show e.toSend + Driver.toTake { p.dec with beatsIn := _ } < _
    simp only [Driver.toTake, List.length_append]
    have hlen : (out.map Out.beat).toList.length = out.toList.length := by cases out <;> rfl
    omega
  | take r d out hr hrule =>
    have hlt := toTake_lt hr hrule
    show p.enc.toSend + d.toTake < _
    omega
  | read c d hc ht =>
    rw [Driver.read] at ht
    split at ht
    · cases ht
    · next c' rest hq =>
      obtain rfl := Option.some.inj ht
      simp only [Driver.toTake, hq, List.length_cons]
      omega

/-! ### Nothing left to do -/

/-- Nothing becomes any more of what was written. -/
def Pipe.Done (p : Pipe P) : Prop := ∀ q, ¬ Pipe.Work p q

/-- Where nothing happens any more the receiver has taken everything. -/
theorem Linked.dec_empty {p : Pipe P} (h : Linked p) (hdone : p.Done) :
    p.dec.fromHostSyncQ = [] ∧ p.dec.beatsIn = [] := by
  have hread : p.dec.fromHostSyncQ = [] := by
    cases hq : p.dec.fromHostSyncQ with
    | nil => rfl
    | cons c rest =>
      refine absurd (Pipe.Work.read p c { p.dec with fromHostSyncQ := rest } ?_ ?_) (hdone _)
      · rw [hq]
        rfl
      · rw [Driver.read, hq]
  have hroom : p.dec.fromHostSyncQ.length < 8 := by
    rw [hread]
    exact Nat.succ_pos _
  refine ⟨hread, ?_⟩
  cases hq : p.dec.beatsIn with
  | nil => rfl
  | cons beat rest =>
    have hsound := h.sound
    rw [hq] at hsound
    by_cases hzero : p.dec.remBytesIn = 0
    · have hdest := (hsound.1 hzero).1
      obtain ⟨d, hd⟩ : ∃ d, p.dec.processHeaderFromHost = some d := by
        rw [Driver.processHeaderFromHost, hq]
        dsimp only
        rw [if_pos ⟨h.init.2, hzero, hdest⟩]
        by_cases hcont : isContinuation beat = true
        · exact ⟨_, if_pos hcont⟩
        · rw [if_neg hcont]
          exact ⟨_, if_pos hroom⟩
      refine absurd (Pipe.Work.take p .processHeaderFromHost d none rfl ?_) (hdone _)
      rw [rule, hd]
      rfl
    · obtain ⟨d, hd⟩ : ∃ d, p.dec.fwdChunkFromHost = some d := by
        rw [Driver.fwdChunkFromHost, hq]
        exact ⟨_, if_pos ⟨h.init.2, hzero, hroom⟩⟩
      refine absurd (Pipe.Work.take p .fwdChunkFromHost d none rfl ?_) (hdone _)
      rw [rule, hd]
      rfl

/-- Where nothing happens any more and only whole packets were written, the sender has sent
everything. -/
theorem Linked.enc_empty {p : Pipe P} (h : Linked p) (hdone : p.Done)
    (hwhole : remaining numChunks 0 p.given = 0) :
    p.enc.toHostSyncQ = [] ∧ p.enc.toHostCountedQ = [] := by
  obtain ⟨taken, hgiven, hremaining, _⟩ := h.chunks
  -- a chunk waits in front of the clock crossing only if the queue behind it is full
  have hsync : p.enc.toHostSyncQ = [] ∨ p.enc.toHostCountedQ.length = P.countedDepth := by
    cases hq : p.enc.toHostSyncQ with
    | nil => exact Or.inl rfl
    | cons c rest =>
      refine Or.inr (Nat.le_antisymm h.counted ?_)
      by_contra hlt
      obtain ⟨e, hconnect⟩ : ∃ e, p.enc.connect = some e := by
        rw [Driver.connect, hq]
        exact ⟨_, if_pos (by omega)⟩
      refine absurd (Pipe.Work.send p .connect e none rfl ?_) (hdone _)
      rw [rule, hconnect]
      rfl
  have hcounted : p.enc.toHostCountedQ = [] := by
    cases hq : p.enc.toHostCountedQ with
    | nil => rfl
    | cons first rest =>
      exfalso
      by_cases hzero : p.enc.remBytesOut = 0
      · -- a message can be begun
        have hcan : p.enc.canStartPacketToHost.isSome = true := by
          rcases hsync with hnil | hfull
          · rw [hgiven, hnil, List.append_nil, remaining_append, hremaining] at hwhole
            exact canStart_of_complete (by simp [hq]) hwhole
          · exact canStart_of_full (Nat.le_of_eq hfull.symm)
        obtain ⟨⟨e, out⟩, hstart⟩ :=
          Option.isSome_iff_exists.mp (start_of_canStart hcan h.init.1 hzero h.quiet)
        refine absurd (Pipe.Work.send p .startBlueNoCPacketToHost e (some out) rfl ?_) (hdone _)
        rw [rule, hstart]
        rfl
      · obtain ⟨e, out, hfwd⟩ : ∃ e out, p.enc.fwdChunkToHost = some (e, out) := by
          rw [Driver.fwdChunkToHost, hq]
          dsimp only
          rw [if_pos hzero]
          exact ⟨_, _, rfl⟩
        refine absurd (Pipe.Work.send p .fwdChunkToHost e (some out) rfl ?_) (hdone _)
        rw [rule, hfwd]
        rfl
  refine ⟨hsync.resolve_right fun hfull => ?_, hcounted⟩
  have := maxChunksPerPacket_lt (P := P)
  rw [hcounted, List.length_nil] at hfull
  omega

/-! ### Round trip -/

/-- What comes of packets that were written. -/
structure RoundTrip (p : Pipe P) (ps : List (Packet P)) : Prop where
  /-- What came out is the beginning of them. -/
  arrived : p.received ++ p.dec.fromHostSyncQ <+: ps.flatMap Packet.arrives
  /-- Where nothing happens any more, all of them were read, and no beat is left. -/
  finished : p.given = ps.flatMap Packet.stream → p.Done →
    p.received = ps.flatMap Packet.arrives ∧ p.dec.beatsIn = [] ∧ p.enc.remChunksOut = 0 ∧
      ((∀ k ∈ ps, cleared k.header = k.header) → p.received = p.given)
  /-- Every step that is not a write leaves less to do. -/
  progress : ∀ q, Pipe.Work p q → q.work < p.work
  /-- The sender's counters: a message that can be begun has a length of eight bits, and one that is
  begun has no more chunks to come than its packet. -/
  sender : (∀ state, p.enc.canStartPacketToHost = some state →
      state.bnChunks = min state.umfChunks P.maxChunksPerPacket ∧
        state.bnChunks * P.beatBytes + P.headerDataBytes < 2 ^ 8) ∧
    ∃ k, p.enc.remBytesOut = k * P.beatBytes ∧ p.enc.remBytesOut < 2 ^ 8 ∧
      k ≤ p.enc.remChunksOut ∧ p.enc.remChunksOut < 2 ^ P.lengthBits
  /-- The receiver's counter: whole beats. -/
  receiver : ∃ k, p.dec.remBytesIn = k * P.beatBytes ∧ p.dec.remBytesIn < 2 ^ 8

/-- **Round trip.** Whatever whole packets the model of one driver writes, with any pace of writing,
sending and reading, the model of the other reads them, in order and each once; no counter
overflows.
-/
theorem round_trip (P : Params) (p : Pipe P) (ps : List (Packet P)) (h : (pipe P).Reachable p)
    (hgiven : p.given <+: ps.flatMap Packet.stream) : RoundTrip p ps := by
  have hlinked := linked_of_reachable h
  obtain ⟨taken, hstream, hremaining, hwire⟩ := hlinked.chunks
  have hbegin : taken <+: p.given := by
    rw [hstream, List.append_assoc]
    exact List.prefix_append _ _
  constructor
  case arrived =>
    obtain ⟨rest, hrest⟩ := hbegin.trans hgiven
    rw [← wire_packets, ← hrest, wire_append, ← hwire, List.append_assoc]
    exact List.prefix_append _ _
  case finished =>
    intro hall hdone
    obtain ⟨hread, hbeats⟩ := hlinked.dec_empty hdone
    obtain ⟨hsync, hcounted⟩ := hlinked.enc_empty hdone (by rw [hall]; exact remaining_packets ps)
    rw [hsync, hcounted, List.append_nil, List.append_nil] at hstream
    have hreceived : p.received = ps.flatMap Packet.arrives := by
      rw [← wire_packets, ← hall, hstream, ← hwire, hread, hbeats, decoded, List.append_nil,
        List.append_nil]
    refine ⟨hreceived, hbeats, ?_, fun hpadded => ?_⟩
    · rw [← hremaining, ← hstream, hall, remaining_packets]
    · rw [hreceived, hall, arrives_eq_stream hpadded]
  case progress =>
    intro q hq
    exact hq.work_lt
  case sender =>
    refine ⟨fun state hstate => ?_, ?_⟩
    · obtain ⟨first, rest, _, rfl⟩ := canStart_eq_some hstate
      exact ⟨rfl, message_lt (Nat.min_le_right _ _)⟩
    · obtain ⟨k, hk, hbytes, hle⟩ := hlinked.out
      have hlt := message_lt hk
      exact ⟨k, hbytes, by omega, hle, hlinked.remChunksOut_lt⟩
  case receiver =>
    obtain ⟨k, hk, hbytes⟩ := hlinked.remBytesIn
    have hlt := message_lt hk
    exact ⟨k, hbytes, by omega⟩

/-! ### A run -/

/-- A turn of the two drivers. -/
inductive Pipe.Turn (P : Params)
  | write (chunk : Beat P)
  | send (r : Rule P)
  | take (r : Rule P)
  | read

/-- What a turn makes of them, if it can be taken. -/
def Pipe.turn (p : Pipe P) : Pipe.Turn P → Option (Pipe P)
  | .write chunk =>
    (p.enc.write chunk).map fun e => { p with enc := e, given := p.given ++ [chunk] }
  | .send r =>
    if r.toHost then
      (rule r p.enc).map fun (e, out) => { p with
        enc := e
        dec := { p.dec with beatsIn := p.dec.beatsIn ++ (out.map Out.beat).toList } }
    else none
  | .take r => if r.fromHost then (rule r p.dec).map fun (d, _) => { p with dec := d } else none
  | .read =>
    match p.dec.fromHostSyncQ.head?, p.dec.read with
    | some chunk, some d => some { p with dec := d, received := p.received ++ [chunk] }
    | _, _ => none

theorem Pipe.turn_step {p q : Pipe P} {t : Pipe.Turn P} (h : p.turn t = some q) :
    Pipe.Step p q := by
  cases t with
  | write chunk =>
    obtain ⟨e, ht, rfl⟩ := Option.map_eq_some_iff.mp h
    exact .write p chunk e ht
  | send r =>
    rw [Pipe.turn] at h
    split at h
    · next hr =>
      obtain ⟨⟨e, out⟩, ht, rfl⟩ := Option.map_eq_some_iff.mp h
      exact .work (.send p r e out hr ht)
    · cases h
  | take r =>
    rw [Pipe.turn] at h
    split at h
    · next hr =>
      obtain ⟨⟨d, out⟩, ht, rfl⟩ := Option.map_eq_some_iff.mp h
      exact .work (.take p r d out hr ht)
    · cases h
  | read =>
    rw [Pipe.turn] at h
    split at h
    · next chunk d hc hd =>
      obtain rfl := Option.some.inj h
      exact .work (.read p chunk d hc hd)
    · cases h

/-- What turns reach is reachable. -/
theorem Pipe.turns_reachable {p q : Pipe P} {ts : List (Pipe.Turn P)} (hp : (pipe P).Reachable p)
    (h : ts.foldlM Pipe.turn p = some q) : (pipe P).Reachable q := by
  induction ts generalizing p with
  | nil =>
    obtain rfl := Option.some.inj h
    exact hp
  | cons t ts ih =>
    rw [List.foldlM_cons] at h
    obtain ⟨p', ht, hrest⟩ := Option.bind_eq_some_iff.mp h
    exact ih (hp.step (Pipe.turn_step ht)) hrest

/-- Beats of eight bytes, and the UMF packet lengths of the default header. -/
def sampleParams : Params where
  beatBytes := 8
  beatBytes_eq := Or.inl rfl
  lengthBits := 10
  lengthBits_ge := by decide
  lengthBits_le := by decide
  historyIndexBits := 0

/-- A packet of one chunk. -/
def samplePacket : Packet sampleParams where
  header := 0xabc0001
  chunks := [7]
  numChunks_eq := by decide

/-- The two drivers before anything is written. -/
def samplePipe : Pipe sampleParams where
  enc := .initialised false 0
  dec := .initialised false 0
  given := []
  received := []

/-- The packet is written, sent in one message, and read. -/
def sampleTurns : List (Pipe.Turn sampleParams) :=
  [.write 0xabc0001, .send .connect, .write 7, .send .startBlueNoCPacketToHost, .send .connect,
    .send .fwdChunkToHost, .take .processHeaderFromHost, .take .fwdChunkFromHost, .read, .read]

theorem round_trip_sample : ∃ p : Pipe sampleParams, (pipe sampleParams).Reachable p ∧
    p.received = samplePacket.stream ∧ RoundTrip p [samplePacket] := by
  have hrun : (sampleTurns.foldlM Pipe.turn samplePipe).map (fun p => (p.given, p.received)) =
      some (samplePacket.stream, samplePacket.stream) := by
    decide +kernel
  obtain ⟨p, hp, hpair⟩ := Option.map_eq_some_iff.mp hrun
  obtain ⟨hgiven, hreceived⟩ := Prod.mk.inj hpair
  have hreach := Pipe.turns_reachable (.init ⟨false, false, 0, 0, rfl⟩) hp
  refine ⟨p, hreach, hreceived, round_trip sampleParams p [samplePacket] hreach ?_⟩
  rw [hgiven, List.flatMap_singleton]

end BlueNoC

end PciExpress

end LeapPlatforms
