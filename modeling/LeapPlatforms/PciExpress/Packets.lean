import LeapPlatforms.Foundation.Messages
import LeapPlatforms.PciExpress.BlueNoCDriver

/-!
# UMF packets and BlueNoC messages

What is sent of UMF packets, what a receiver makes of beats, and what the rules of the driver do
with both. What the receiver makes of a beat depends on the bytes that it waits for alone. Only 32
bits of a header chunk travel.

## Main definitions

* `wire` — what arrives of a stream of chunks
* `decoded`, `bytes` — what a receiver makes of a stream of beats
* `Packet` — a UMF packet

## Main results

* `wire_packets`
* `canStart_cons`, `canStart_of_full`, `canStart_of_complete` — when a message can be begun
* `start_eq_some`, `fwdChunkToHost_eq_some`, `processHeader_eq_some`, `fwdChunkFromHost_eq_some`
-/

namespace LeapPlatforms

namespace PciExpress

namespace BlueNoC

open Messages (remaining remaining_append remaining_of_le le_length_of_remaining)

variable {P : Params}

/-! ### UMF packets -/

/-- A header chunk as it arrives: without its upper bits. -/
def cleared (chunk : Beat P) : Beat P := (chunk.extractLsb' 0 32).setWidth P.width

/-- What arrives of a stream of chunks, the first `r` of them of a packet begun before. -/
def wire : ℕ → List (Beat P) → List (Beat P)
  | _, [] => []
  | 0, c :: l => cleared c :: wire (numChunks c) l
  | r + 1, c :: l => c :: wire r l

theorem wire_append (r : ℕ) (l₁ l₂ : List (Beat P)) :
    wire r (l₁ ++ l₂) = wire r l₁ ++ wire (remaining numChunks r l₁) l₂ := by
  induction l₁ generalizing r with
  | nil => cases r <;> rfl
  | cons c l ih =>
    cases r with
    | zero => rw [List.cons_append, wire, ih, wire, List.cons_append, Messages.remaining_zero_cons]
    | succ r =>
      rw [List.cons_append, wire, ih, wire, List.cons_append, Messages.remaining_succ_cons]

/-- Payload arrives as it is. -/
theorem wire_of_le {r : ℕ} {l : List (Beat P)} (h : l.length ≤ r) : wire r l = l := by
  induction l generalizing r with
  | nil => cases r <;> rfl
  | cons c l ih =>
    rw [List.length_cons] at h
    obtain ⟨r, rfl⟩ : ∃ r', r = r' + 1 := ⟨r - 1, by omega⟩
    rw [wire, ih (by omega)]

variable (P) in
/-- A UMF packet: a header, and as many chunks as it says. -/
structure Packet where
  /-- The header chunk. -/
  header : Beat P
  /-- The chunks. -/
  chunks : List (Beat P)
  /-- The header says how many. -/
  numChunks_eq : numChunks header = chunks.length

namespace Packet

/-- The chunks of a packet with its header. -/
def stream (k : Packet P) : List (Beat P) := k.header :: k.chunks

/-- What arrives of them. -/
def arrives (k : Packet P) : List (Beat P) := cleared k.header :: k.chunks

end Packet

theorem remaining_packets (ps : List (Packet P)) :
    remaining numChunks 0 (ps.flatMap Packet.stream) = 0 := by
  induction ps with
  | nil => rfl
  | cons k ps ih =>
    rw [List.flatMap_cons, Packet.stream, List.cons_append, Messages.remaining_zero_cons,
      remaining_append, k.numChunks_eq, remaining_of_le _ (Nat.le_refl _), Nat.sub_self]
    exact ih

theorem wire_packets (ps : List (Packet P)) :
    wire 0 (ps.flatMap Packet.stream) = ps.flatMap Packet.arrives := by
  induction ps with
  | nil => rfl
  | cons k ps ih =>
    rw [List.flatMap_cons, Packet.stream, List.cons_append, wire, wire_append, k.numChunks_eq,
      wire_of_le (Nat.le_refl _), remaining_of_le _ (Nat.le_refl _), Nat.sub_self, ih,
      List.flatMap_cons, Packet.arrives, List.cons_append]

/-- Packets whose headers have nothing in the upper bits arrive as they are. -/
theorem arrives_eq_stream {ps : List (Packet P)} (h : ∀ k ∈ ps, cleared k.header = k.header) :
    ps.flatMap Packet.arrives = ps.flatMap Packet.stream := by
  induction ps with
  | nil => rfl
  | cons k ps ih =>
    rw [List.flatMap_cons, List.flatMap_cons, Packet.arrives, Packet.stream, h k (by simp),
      ih fun k' hk' => h k' (List.mem_cons_of_mem _ hk')]

/-! ### Beats -/

/-- The bytes that a receiver waits for after a beat. -/
def bytesAfter (r : ℕ) (beat : Beat P) : ℕ :=
  if r = 0 then lengthOf beat - P.headerDataBytes else r - P.beatBytes

/-- The chunks in a beat. -/
def chunksOf (r : ℕ) (beat : Beat P) : List (Beat P) :=
  if r = 0 then
    if isContinuation beat then [] else [(umfHeaderOf beat).setWidth P.width]
  else [beat]

/-- The bytes that a receiver waits for after some beats. -/
def bytes : ℕ → List (Beat P) → ℕ
  | r, [] => r
  | r, beat :: l => bytes (bytesAfter r beat) l

/-- The chunks in some beats. -/
def decoded : ℕ → List (Beat P) → List (Beat P)
  | _, [] => []
  | r, beat :: l => chunksOf r beat ++ decoded (bytesAfter r beat) l

/-- Header beats are for the receiver, and their lengths are those of whole chunks. -/
def Sound : ℕ → List (Beat P) → Prop
  | _, [] => True
  | r, beat :: l =>
    (r = 0 → destinationOf beat ≠ debugPort ∧
      ∃ k ≤ P.maxChunksPerPacket, lengthOf beat = k * P.beatBytes + P.headerDataBytes) ∧
    Sound (bytesAfter r beat) l

theorem bytes_concat (r : ℕ) (l : List (Beat P)) (beat : Beat P) :
    bytes r (l ++ [beat]) = bytesAfter (bytes r l) beat := by
  induction l generalizing r with
  | nil => rfl
  | cons b l ih => exact ih _

theorem decoded_concat (r : ℕ) (l : List (Beat P)) (beat : Beat P) :
    decoded r (l ++ [beat]) = decoded r l ++ chunksOf (bytes r l) beat := by
  induction l generalizing r with
  | nil => simp [decoded, bytes]
  | cons b l ih => rw [List.cons_append, decoded, ih, decoded, bytes, List.append_assoc]

theorem Sound.concat {r : ℕ} {l : List (Beat P)} {beat : Beat P} (h : Sound r l)
    (hb : bytes r l = 0 → destinationOf beat ≠ debugPort ∧
      ∃ k ≤ P.maxChunksPerPacket, lengthOf beat = k * P.beatBytes + P.headerDataBytes) :
    Sound r (l ++ [beat]) := by
  induction l generalizing r with
  | nil => exact ⟨hb, trivial⟩
  | cons b l ih => exact ⟨h.1, ih h.2 hb⟩

/-! ### Messages -/

/-- The longest message has a length of eight bits. -/
theorem message_lt {k : ℕ} (h : k ≤ P.maxChunksPerPacket) :
    k * P.beatBytes + P.headerDataBytes < 2 ^ 8 := by
  rw [Params.maxChunksPerPacket] at h
  rw [Params.headerDataBytes]
  rcases P.beatBytes_eq with hb | hb <;> rw [hb] at h ⊢ <;> omega

theorem maxChunksPerPacket_lt : P.maxChunksPerPacket < P.countedDepth := by
  rw [Params.maxChunksPerPacket, Params.countedDepth]
  rcases P.beatBytes_eq with hb | hb <;> rw [hb] <;> decide

theorem maxChunksPerPacket_pos : 0 < P.maxChunksPerPacket := by
  rw [Params.maxChunksPerPacket]
  rcases P.beatBytes_eq with hb | hb <;> rw [hb] <;> decide

theorem beatBytes_pos : 0 < P.beatBytes := by
  rcases P.beatBytes_eq with hb | hb <;> rw [hb] <;> decide

/-- The chunks remaining in the packet whose message is begun. -/
def umfChunks (first : Beat P) (s : Driver P) : ℕ :=
  if s.remChunksOut = 0 then numChunks first else s.remChunksOut

/-- The chunks that have to be there for a message, if it waits for all of them. -/
def chunksNeeded (first : Beat P) (s : Driver P) : ℕ :=
  min (umfChunks first s) P.maxChunksPerPacket + if s.remChunksOut = 0 then 1 else 0

/-- A message that can be begun has as many chunks as are left, up to the maximum. -/
theorem canStart_cons {s : Driver P} {first : Beat P} {rest : List (Beat P)}
    (hq : s.toHostCountedQ = first :: rest) :
    s.canStartPacketToHost =
      if chunksNeeded first s ≤ s.toHostCountedQ.length ∨ s.waitForFullPacket = false then
        some { isUMFStart := s.remChunksOut == 0
               bnChunks := min (umfChunks first s) P.maxChunksPerPacket
               umfChunks := umfChunks first s }
      else none := by
  have hlt := message_lt (P := P) (Nat.min_le_right (umfChunks first s) P.maxChunksPerPacket)
  have hle := Nat.le_mul_of_pos_right (min (umfChunks first s) P.maxChunksPerPacket)
    (beatBytes_pos (P := P))
  have hmod : min (umfChunks first s) P.maxChunksPerPacket % 256 =
      min (umfChunks first s) P.maxChunksPerPacket := Nat.mod_eq_of_lt (by omega)
  rw [Driver.canStartPacketToHost, hq]
  by_cases hzero : s.remChunksOut = 0
  · have humf : umfChunks first s = numChunks first := if_pos hzero
    rw [humf] at hmod ⊢
    simp [hzero, hmod, chunksNeeded, humf, Nat.lt_add_one_iff]
  · have humf : umfChunks first s = s.remChunksOut := if_neg hzero
    rw [humf] at hmod ⊢
    simp [hzero, hmod, chunksNeeded, humf]

theorem canStart_eq_some {s : Driver P} {state : ToHostState}
    (h : s.canStartPacketToHost = some state) :
    ∃ first rest, s.toHostCountedQ = first :: rest ∧
      state = { isUMFStart := s.remChunksOut == 0
                bnChunks := min (umfChunks first s) P.maxChunksPerPacket
                umfChunks := umfChunks first s } := by
  cases hq : s.toHostCountedQ with
  | nil =>
    rw [Driver.canStartPacketToHost, hq] at h
    cases h
  | cons first rest =>
    rw [canStart_cons hq] at h
    split at h
    · exact ⟨first, rest, rfl, (Option.some.inj h).symm⟩
    · cases h

/-- No message needs more chunks than the queue holds. -/
theorem chunksNeeded_le_countedDepth (first : Beat P) (s : Driver P) :
    chunksNeeded first s ≤ P.countedDepth := by
  have hlt := maxChunksPerPacket_lt (P := P)
  have hmin := Nat.min_le_right (umfChunks first s) P.maxChunksPerPacket
  rw [chunksNeeded]
  split <;> omega

theorem canStart_of_chunksNeeded {s : Driver P} {first : Beat P} {rest : List (Beat P)}
    (hq : s.toHostCountedQ = first :: rest)
    (hneeded : chunksNeeded first s ≤ s.toHostCountedQ.length) :
    s.canStartPacketToHost.isSome = true := by
  rw [canStart_cons hq, if_pos (Or.inl hneeded)]
  rfl

/-- **A full queue** never waits for more. -/
theorem canStart_of_full {s : Driver P} (hfull : P.countedDepth ≤ s.toHostCountedQ.length) :
    s.canStartPacketToHost.isSome = true := by
  cases hq : s.toHostCountedQ with
  | nil =>
    have hlt := maxChunksPerPacket_lt (P := P)
    rw [hq, List.length_nil] at hfull
    omega
  | cons first rest =>
    exact canStart_of_chunksNeeded hq ((chunksNeeded_le_countedDepth first s).trans hfull)

/-- **The chunks of whole packets** are enough for the next message. -/
theorem canStart_of_complete {s : Driver P} (hne : s.toHostCountedQ ≠ [])
    (hwhole : remaining numChunks s.remChunksOut s.toHostCountedQ = 0) :
    s.canStartPacketToHost.isSome = true := by
  obtain ⟨first, rest, hq⟩ := List.exists_cons_of_ne_nil hne
  refine canStart_of_chunksNeeded hq ?_
  rw [hq] at hwhole ⊢
  rw [chunksNeeded, umfChunks, List.length_cons]
  by_cases hstart : s.remChunksOut = 0
  · rw [hstart, Messages.remaining_zero_cons] at hwhole
    have hle := le_length_of_remaining _ hwhole
    rw [if_pos hstart, if_pos hstart]
    omega
  · have hle := le_length_of_remaining _ hwhole
    rw [List.length_cons] at hle
    rw [if_neg hstart, if_neg hstart]
    omega

theorem start_of_canStart {s : Driver P} (hcan : s.canStartPacketToHost.isSome = true)
    (hinit : s.initDone = true) (hzero : s.remBytesOut = 0) (hdebug : s.inDebugPacket = false) :
    s.startBlueNoCPacketToHost.isSome = true := by
  obtain ⟨state, hstate⟩ := Option.isSome_iff_exists.mp hcan
  obtain ⟨first, rest, hq, _⟩ := canStart_eq_some hstate
  rw [Driver.startBlueNoCPacketToHost, hq, hstate]
  dsimp only
  rw [if_pos ⟨hinit, hzero, hdebug⟩]
  rfl

/-- The high bit of the flags says whether a UMF header is missing. -/
theorem getLsbD_flagsToHost (state : ToHostState) (s : Driver P) :
    (Driver.flagsToHost state s).getLsbD 7 = !state.isUMFStart := by
  rw [Driver.flagsToHost, BitVec.getLsbD_append, if_neg (by decide), BitVec.getLsbD_append,
    if_neg (by decide)]
  simp

/-- What `startBlueNoCPacketToHost` does. -/
theorem start_eq_some {s e : Driver P} {out : Out P}
    (h : s.startBlueNoCPacketToHost = some (e, out)) :
    ∃ first rest flags, s.toHostCountedQ = first :: rest ∧
      (s.remBytesOut = 0 ∧ s.inDebugPacket = false) ∧
      (flags : BitVec 8).getLsbD 7 = !(s.remChunksOut == 0) ∧
      out.beat = headerBeat (first.extractLsb' 0 32) flags
        (BitVec.ofNat 8 (min (umfChunks first s) P.maxChunksPerPacket * P.beatBytes +
          P.headerDataBytes)) 4 0 ∧
      out.producer = .start ∧
      e = { s with
        toHostCountedQ := if s.remChunksOut = 0 then rest else s.toHostCountedQ
        remBytesOut := min (umfChunks first s) P.maxChunksPerPacket * P.beatBytes
        remChunksOut := umfChunks first s
        inactiveOutCnt := s.maxTimeout } := by
  rw [Driver.startBlueNoCPacketToHost] at h
  split at h
  · next chunk rest state hq hstate =>
    obtain ⟨first, rest', hq', rfl⟩ := canStart_eq_some hstate
    obtain ⟨rfl, rfl⟩ := List.cons.inj (hq.symm.trans hq')
    split at h
    · next hc =>
      obtain ⟨rfl, rfl⟩ := Prod.mk.inj (Option.some.inj h)
      have hlt := message_lt (P := P) (Nat.min_le_right (umfChunks chunk s) P.maxChunksPerPacket)
      refine ⟨chunk, rest, _, hq, hc.2, getLsbD_flagsToHost
        { isUMFStart := s.remChunksOut == 0
          bnChunks := min (umfChunks chunk s) P.maxChunksPerPacket
          umfChunks := umfChunks chunk s } s, ?_, rfl, ?_⟩
      · dsimp only
        rw [Nat.mod_eq_of_lt (Nat.lt_of_le_of_lt (Nat.le_add_right _ _) hlt),
          Nat.mod_eq_of_lt hlt]
      · simp only [beq_iff_eq]
        rw [Nat.mod_eq_of_lt (Nat.lt_of_le_of_lt (Nat.le_add_right _ _) hlt)]
    · cases h
  · cases h

/-- What `processHeaderFromHost` does. -/
theorem processHeader_eq_some {s d : Driver P} (h : s.processHeaderFromHost = some d) :
    ∃ beat rest history, s.beatsIn = beat :: rest ∧ s.remBytesIn = 0 ∧
      d = { s with
        beatsIn := rest
        fromHostSyncQ := s.fromHostSyncQ ++ chunksOf 0 beat
        historyFromHost := history
        historyFromHostNext := s.historyFromHostNext + 1
        remBytesIn := bytesAfter 0 beat } := by
  rw [Driver.processHeaderFromHost] at h
  split at h
  · cases h
  · next beat rest hq =>
    split at h
    · next hc =>
      have hin : (if P.headerDataBytes < lengthOf beat then lengthOf beat - P.headerDataBytes
          else s.remBytesIn) = bytesAfter 0 beat := by
        rw [bytesAfter, if_pos rfl, hc.2.1]
        split <;> omega
      dsimp only at h
      rw [hin] at h
      by_cases hcont : isContinuation beat = true
      · rw [if_pos hcont] at h
        refine ⟨beat, rest, d.historyFromHost, hq, hc.2.1, ?_⟩
        have hchunks : chunksOf 0 beat = [] := by rw [chunksOf, if_pos rfl, if_pos hcont]
        obtain rfl := Option.some.inj h
        rw [hchunks, List.append_nil]
        rfl
      · rw [if_neg hcont] at h
        split at h
        · refine ⟨beat, rest, d.historyFromHost, hq, hc.2.1, ?_⟩
          have hchunks : chunksOf 0 beat = [(umfHeaderOf beat).setWidth P.width] := by
            rw [chunksOf, if_pos rfl, if_neg hcont]
          obtain rfl := Option.some.inj h
          rw [hchunks]
          rfl
        · cases h
    · cases h

/-- What `fwdChunkFromHost` does. -/
theorem fwdChunkFromHost_eq_some {s d : Driver P} (h : s.fwdChunkFromHost = some d) :
    ∃ beat rest history, s.beatsIn = beat :: rest ∧ s.remBytesIn ≠ 0 ∧
      d = { s with
        beatsIn := rest
        fromHostSyncQ := s.fromHostSyncQ ++ chunksOf s.remBytesIn beat
        historyFromHost := history
        historyFromHostNext := s.historyFromHostNext + 1
        remBytesIn := bytesAfter s.remBytesIn beat } := by
  rw [Driver.fwdChunkFromHost] at h
  split at h
  · cases h
  · next beat rest hq =>
    split at h
    · next hc =>
      have hin : (if P.beatBytes < s.remBytesIn then s.remBytesIn - P.beatBytes else 0) =
          bytesAfter s.remBytesIn beat := by
        rw [bytesAfter, if_neg hc.2.1]
        split <;> omega
      rw [hin] at h
      refine ⟨beat, rest, d.historyFromHost, hq, hc.2.1, ?_⟩
      obtain rfl := Option.some.inj h
      rw [chunksOf, if_neg hc.2.1]
      rfl
    · cases h

/-- What `fwdChunkToHost` does. -/
theorem fwdChunkToHost_eq_some {s e : Driver P} {out : Out P}
    (h : s.fwdChunkToHost = some (e, out)) :
    ∃ chunk rest, s.toHostCountedQ = chunk :: rest ∧ s.remBytesOut ≠ 0 ∧
      out = { beat := chunk, producer := .chunk } ∧
      e = { s with
        toHostCountedQ := rest
        remChunksOut := (s.remChunksOut + 2 ^ P.lengthBits - 1) % 2 ^ P.lengthBits
        inactiveOutCnt := s.maxTimeout
        remBytesOut := s.remBytesOut - P.beatBytes } := by
  rw [Driver.fwdChunkToHost] at h
  split at h
  · cases h
  · next chunk rest hq =>
    split at h
    · next hne =>
      have hout : (if P.beatBytes < s.remBytesOut then s.remBytesOut - P.beatBytes else 0) =
          s.remBytesOut - P.beatBytes := by
        split <;> omega
      rw [hout] at h
      obtain ⟨rfl, rfl⟩ := Prod.mk.inj (Option.some.inj h)
      exact ⟨chunk, rest, hq, hne, rfl, rfl⟩
    · cases h

end BlueNoC

end PciExpress

end LeapPlatforms
