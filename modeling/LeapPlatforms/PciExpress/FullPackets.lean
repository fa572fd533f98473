import LeapPlatforms.PciExpress.OutputStream

/-!
# Messages that wait for their chunks

With `waitForFullPacket` set a message is begun when all its chunks are in `toHostCountedQ`. From
then on only the rule that sends them takes chunks out of that queue, so the message needs nothing
more from the model. That the queue holds the longest message, and that a message needs no chunk
beyond its packet, is why it can always be begun.

## Main definitions

* `Sending`, `sending` — the runs of a driver, with what was written and what was sent
* `Buffered` — what holds of the registers and queues on the way to the host
* `Refills` — the model goes on writing
* `FullPackets`

## Main results

* `Buffered.step`, `buffered_of_reachable`
* `exists_sent` — the rest of a message goes out by one rule
* `Refills.exists_full`
* `full_packets`
-/

namespace LeapPlatforms

namespace PciExpress

namespace BlueNoC

open Messages (remaining remaining_append Complete Open)

variable {P : Params}

/-! ### Runs -/

/-- The chunk that the model writes. -/
def Rule.written : Rule P → Option (Beat P)
  | .write chunk => some chunk
  | _ => none

variable (P) in
/-- A driver, what the model wrote, and what was sent. -/
structure Sending where
  /-- The driver. -/
  driver : Driver P
  /-- The chunks that the model wrote. -/
  written : List (Beat P)
  /-- The beats put into `beatsOut`. -/
  sent : List (Out P)

/-- What a rule makes of them. -/
def Sending.fire (s : Sending P) (r : Rule P) : Option (Sending P) :=
  (rule r s.driver).map fun (d, out) =>
    { driver := d, written := s.written ++ r.written.toList, sent := s.sent ++ out.toList }

variable (P) in
/-- The runs of a driver, whatever the model and the host do. -/
def sending : TransitionSystem (Sending P) where
  init s := s = { driver := .reset P, written := [], sent := [] }
  step s t := ∃ r, s.fire r = some t

theorem Sending.fire_eq_some {s t : Sending P} {r : Rule P} :
    s.fire r = some t ↔ ∃ out, rule r s.driver = some (t.driver, out) ∧
      t.written = s.written ++ r.written.toList ∧ t.sent = s.sent ++ out.toList := by
  rw [fire, Option.map_eq_some_iff]
  constructor
  · rintro ⟨⟨d, out⟩, hr, rfl⟩
    exact ⟨out, hr, rfl, rfl⟩
  · rintro ⟨out, hr, hwritten, hsent⟩
    refine ⟨(t.driver, out), hr, ?_⟩
    dsimp only
    rw [← hwritten, ← hsent]

theorem InOrder.fire {s t : Sending P} {r : Rule P} (h : InOrder s.driver s.sent)
    (ht : s.fire r = some t) : InOrder t.driver t.sent := by
  obtain ⟨out, hr, _, hsent⟩ := Sending.fire_eq_some.mp ht
  rw [hsent]
  exact h.step hr

theorem inOrder_of_sending {s : Sending P} (h : (sending P).Reachable s) :
    InOrder s.driver s.sent := by
  refine h.invariant (P := fun s => InOrder s.driver s.sent) ?_ ?_
  · rintro s rfl
    exact .between rfl rfl rfl Messages.complete_nil
  · rintro s t hs ⟨r, ht⟩
    exact hs.fire ht

/-! ### The way to the host -/

/-- The registers and queues on the way to the host are the same. -/
structure SameWay (s e : Driver P) : Prop where
  initDone : e.initDone = s.initDone
  waitForFullPacket : e.waitForFullPacket = s.waitForFullPacket
  toHostSyncQ : e.toHostSyncQ = s.toHostSyncQ
  toHostCountedQ : e.toHostCountedQ = s.toHostCountedQ
  remBytesOut : e.remBytesOut = s.remBytesOut
  remChunksOut : e.remChunksOut = s.remChunksOut

/-- The rules on the way to the host. -/
def Rule.onTheWay : Rule P → Bool
  | .write _ | .connect | .initFromHost | .startBlueNoCPacketToHost | .fwdChunkToHost => true
  | _ => false

/-- **The other rules** leave the way to the host as it is. -/
theorem sameWay_of_rule {s e : Driver P} {r : Rule P} {out : Option (Out P)}
    (hway : r.onTheWay = false) (hr : rule r s = some (e, out)) : SameWay s e := by
  cases r with
  | arrive beat =>
    obtain ⟨rfl, rfl⟩ := Prod.mk.inj (Option.some.inj hr)
    constructor <;> rfl
  | read =>
    obtain ⟨ht, rfl⟩ := silent_eq_some.mp hr
    rw [Driver.read] at ht
    split at ht
    · cases ht
    · obtain rfl := Option.some.inj ht
      constructor <;> rfl
  | processHeaderFromHost =>
    obtain ⟨ht, rfl⟩ := silent_eq_some.mp hr
    obtain ⟨_, _, _, _, _, rfl⟩ := processHeader_eq_some ht
    constructor <;> rfl
  | fwdChunkFromHost =>
    obtain ⟨ht, rfl⟩ := silent_eq_some.mp hr
    obtain ⟨_, _, _, _, _, rfl⟩ := fwdChunkFromHost_eq_some ht
    constructor <;> rfl
  | triggerTimeout =>
    rw [rule, Driver.triggerTimeout] at hr
    split at hr
    · obtain ⟨rfl, rfl⟩ := Prod.mk.inj (Option.some.inj hr)
      constructor <;> rfl
    · cases hr
  | debug =>
    obtain ⟨_, ht, rfl⟩ := sends_eq_some.mp hr
    rw [Driver.debug] at ht
    split at ht
    · cases ht
    · split at ht
      · split at ht
        · obtain ⟨rfl, rfl⟩ := Prod.mk.inj (Option.some.inj ht)
          constructor <;> rfl
        · split at ht
          · obtain ⟨rfl, rfl⟩ := Prod.mk.inj (Option.some.inj ht)
            constructor <;> rfl
          · obtain ⟨rfl, rfl⟩ := Prod.mk.inj (Option.some.inj ht)
            constructor <;> rfl
      · cases ht
  | fwdHistoryFromHost =>
    obtain ⟨_, ht, rfl⟩ := sends_eq_some.mp hr
    rw [Driver.fwdHistoryFromHost] at ht
    split at ht
    · cases ht
    · split at ht
      · obtain ⟨rfl, rfl⟩ := Prod.mk.inj (Option.some.inj ht)
        constructor <;> rfl
      · cases ht
  | _ => cases hway

/-- What holds on the way to the host. -/
structure Buffered (s : Driver P) (written : List (Beat P)) : Prop where
  /-- Before the host's first beat nothing is written, and nothing begun. -/
  closed : s.initDone = false →
    s.toHostSyncQ = [] ∧ s.toHostCountedQ = [] ∧ s.remBytesOut = 0 ∧ s.waitForFullPacket = false
  /-- The counter of the chunks of a packet. -/
  remChunksOut_lt : s.remChunksOut < 2 ^ P.lengthBits
  /-- A message has whole beats left, of a packet that has as many. A message that waited for them
  has them in the queue. -/
  out : ∃ k ≤ s.remChunksOut, s.remBytesOut = k * P.beatBytes ∧
    (s.waitForFullPacket = true → k ≤ s.toHostCountedQ.length)
  /-- Where the chunks that wait are in their packets. -/
  position : remaining numChunks 0 written =
    remaining numChunks s.remChunksOut (s.toHostCountedQ ++ s.toHostSyncQ)

theorem numChunks_lt (chunk : Beat P) : numChunks chunk < 2 ^ P.lengthBits :=
  BitVec.isLt _

/-- What a message waits for. -/
theorem chunksNeeded_le_of_start {s e : Driver P} {o : Out P} {first : Beat P}
    {rest : List (Beat P)} (hq : s.toHostCountedQ = first :: rest)
    (h : s.startBlueNoCPacketToHost = some (e, o)) (hwait : s.waitForFullPacket = true) :
    chunksNeeded first s ≤ s.toHostCountedQ.length := by
  by_contra hlt
  have hcan := canStart_cons hq
  rw [if_neg (by simp [hlt, hwait])] at hcan
  rw [Driver.startBlueNoCPacketToHost, hcan] at h
  split at h
  · next hnone =>
    cases hnone
  · cases h

namespace Buffered

variable {s e : Driver P} {written : List (Beat P)} {chunk : Beat P} {o : Out P}

theorem reset : Buffered (.reset P) [] where
  closed _ := ⟨rfl, rfl, rfl, rfl⟩
  remChunksOut_lt := Nat.two_pow_pos _
  out := ⟨0, Nat.le_refl _, (Nat.zero_mul _).symm, fun _ => Nat.zero_le _⟩
  position := rfl

theorem congr (h : Buffered s written) (hs : SameWay s e) : Buffered e written := by
  constructor
  · rw [hs.initDone, hs.toHostSyncQ, hs.toHostCountedQ, hs.remBytesOut, hs.waitForFullPacket]
    exact h.closed
  · rw [hs.remChunksOut]
    exact h.remChunksOut_lt
  · rw [hs.remChunksOut, hs.remBytesOut, hs.waitForFullPacket, hs.toHostCountedQ]
    exact h.out
  · rw [hs.remChunksOut, hs.toHostCountedQ, hs.toHostSyncQ]
    exact h.position

/-- The host says once, and before any message, whether messages wait. -/
theorem initFromHost (h : Buffered s written) (ht : s.initFromHost = some e) :
    Buffered e written := by
  rw [Driver.initFromHost] at ht
  split at ht
  · cases ht
  · split at ht
    · next hinit =>
      obtain rfl := Option.some.inj ht
      obtain ⟨_, _, hzero, _⟩ := h.closed hinit
      refine ⟨?_, h.remChunksOut_lt, ⟨0, Nat.zero_le _, ?_, fun _ => Nat.zero_le _⟩, h.position⟩
      · intro hdone
        cases hdone
      · rw [Nat.zero_mul]
        exact hzero
    · cases ht

theorem write (h : Buffered s written) (ht : s.write chunk = some e) :
    Buffered e (written ++ [chunk]) := by
  rw [Driver.write] at ht
  split at ht
  · next hroom =>
    obtain rfl := Option.some.inj ht
    refine ⟨?_, h.remChunksOut_lt, h.out, ?_⟩
    · intro hinit
      exact absurd (hroom.1.symm.trans hinit) (by decide)
    · show _ = remaining numChunks s.remChunksOut (s.toHostCountedQ ++ (s.toHostSyncQ ++ [chunk]))
      rw [remaining_append, h.position, ← List.append_assoc, ← remaining_append]
  · cases ht

theorem connect (h : Buffered s written) (ht : s.connect = some e) : Buffered e written := by
  rw [Driver.connect] at ht
  split at ht
  · cases ht
  · next c rest hq =>
    split at ht
    · obtain rfl := Option.some.inj ht
      obtain ⟨k, hk, hbytes, hwait⟩ := h.out
      have hwait' : s.waitForFullPacket = true → k ≤ (s.toHostCountedQ ++ [c]).length := by
        intro hw
        rw [List.length_append]
        exact Nat.le_add_right_of_le (hwait hw)
      refine ⟨?_, h.remChunksOut_lt, ⟨k, hk, hbytes, hwait'⟩, ?_⟩
      · intro hinit
        obtain ⟨hnil, _⟩ := h.closed hinit
        rw [hq] at hnil
        cases hnil
      · show _ = remaining numChunks s.remChunksOut (s.toHostCountedQ ++ [c] ++ rest)
        rw [h.position, hq, List.append_assoc, List.singleton_append]
    · cases ht

/-- A message begins: all that it has left is in the queue, if it waited for that. -/
theorem start (h : Buffered s written) (ht : s.startBlueNoCPacketToHost = some (e, o)) :
    Buffered e written := by
  obtain ⟨first, rest, _, hq, _, _, _, _, rfl⟩ := start_eq_some ht
  have hneeded := chunksNeeded_le_of_start hq ht
  have hposition := h.position
  have hmin : min (umfChunks first s) P.maxChunksPerPacket ≤ umfChunks first s :=
    Nat.min_le_left _ _
  refine ⟨?_, ?_, ⟨_, hmin, rfl, ?_⟩, ?_⟩
  · intro hinit
    obtain ⟨_, hnil, _, _⟩ := h.closed hinit
    rw [hq] at hnil
    cases hnil
  · show umfChunks first s < _
    rw [umfChunks]
    split
    · exact numChunks_lt first
    · exact h.remChunksOut_lt
  · intro hwait
    have hlen := hneeded hwait
    rw [chunksNeeded, hq, List.length_cons] at hlen
    by_cases hstart : s.remChunksOut = 0
    · simp only [hstart, if_true] at hlen ⊢
      omega
    · simp only [hstart, if_false] at hlen ⊢
      rw [hq, List.length_cons]
      omega
  · rw [hposition, hq]
    by_cases hstart : s.remChunksOut = 0
    · simp only [umfChunks, hstart, if_true, List.cons_append, Messages.remaining_zero_cons]
    · simp only [umfChunks, hstart, if_false]

/-- A chunk is sent: one fewer is left, and one fewer is in the queue. -/
theorem fwdChunk (h : Buffered s written) (ht : s.fwdChunkToHost = some (e, o)) :
    Buffered e written := by
  obtain ⟨c, rest, hq, hne, rfl, rfl⟩ := fwdChunkToHost_eq_some ht
  obtain ⟨k, hk, hbytes, hwait⟩ := h.out
  have hpos : 0 < k := by
    rw [hbytes] at hne
    exact Nat.pos_of_ne_zero (left_ne_zero_of_mul hne)
  have hlt := h.remChunksOut_lt
  have hdec : (s.remChunksOut + 2 ^ P.lengthBits - 1) % 2 ^ P.lengthBits = s.remChunksOut - 1 := by
    rw [show s.remChunksOut + 2 ^ P.lengthBits - 1 = s.remChunksOut - 1 + 2 ^ P.lengthBits by omega,
      Nat.add_mod_right, Nat.mod_eq_of_lt (by omega)]
  refine ⟨?_, ?_, ⟨k - 1, ?_, ?_, ?_⟩, ?_⟩
  · intro hinit
    obtain ⟨_, _, hzero, _⟩ := h.closed hinit
    exact absurd hzero hne
  · dsimp only
    rw [hdec]
    omega
  · dsimp only
    rw [hdec]
    omega
  · show s.remBytesOut - P.beatBytes = _
    rw [hbytes, Nat.sub_mul, Nat.one_mul]
  · intro hw
    have hlen := hwait hw
    rw [hq, List.length_cons] at hlen
    show k - 1 ≤ rest.length
    omega
  · have hposition := h.position
    rw [hq] at hposition
    show _ = remaining numChunks ((s.remChunksOut + 2 ^ P.lengthBits - 1) % 2 ^ P.lengthBits) _
    rw [hposition, hdec, List.cons_append]
    obtain ⟨r, hr⟩ : ∃ r, s.remChunksOut = r + 1 := ⟨s.remChunksOut - 1, by omega⟩
    rw [hr, Messages.remaining_succ_cons, Nat.add_sub_cancel]

/-- **Every rule** keeps what holds on the way to the host. -/
theorem step {r : Rule P} {out : Option (Out P)} (h : Buffered s written)
    (hr : rule r s = some (e, out)) : Buffered e (written ++ r.written.toList) := by
  cases hway : r.onTheWay with
  | false =>
    have hnone : r.written.toList = [] := by
      cases r with
      | write chunk => cases hway
      | _ => rfl
    rw [hnone, List.append_nil]
    exact h.congr (sameWay_of_rule hway hr)
  | true =>
    cases r with
    | write chunk =>
      obtain ⟨ht, rfl⟩ := silent_eq_some.mp hr
      exact h.write ht
    | connect =>
      obtain ⟨ht, rfl⟩ := silent_eq_some.mp hr
      exact (List.append_nil written).symm ▸ h.connect ht
    | initFromHost =>
      obtain ⟨ht, rfl⟩ := silent_eq_some.mp hr
      exact (List.append_nil written).symm ▸ h.initFromHost ht
    | startBlueNoCPacketToHost =>
      obtain ⟨_, ht, rfl⟩ := sends_eq_some.mp hr
      exact (List.append_nil written).symm ▸ h.start ht
    | fwdChunkToHost =>
      obtain ⟨_, ht, rfl⟩ := sends_eq_some.mp hr
      exact (List.append_nil written).symm ▸ h.fwdChunk ht
    | _ => cases hway

end Buffered

theorem buffered_of_reachable {s : Sending P} (h : (sending P).Reachable s) :
    Buffered s.driver s.written := by
  refine h.invariant (P := fun s => Buffered s.driver s.written) ?_ ?_
  · rintro s rfl
    exact .reset
  · rintro s t hs ⟨r, ht⟩
    obtain ⟨out, hr, hwritten, _⟩ := Sending.fire_eq_some.mp ht
    rw [hwritten]
    exact hs.step hr

/-! ### The rest of a message -/

/-- The chunks of a message that are in the queue go out, one after the other, by the rule that
sends them. -/
theorem exists_sent {k : ℕ} {s : Sending P} (hbytes : s.driver.remBytesOut = k * P.beatBytes)
    (hlen : k ≤ s.driver.toHostCountedQ.length) (horder : InOrder s.driver s.sent) :
    ∃ t, (List.replicate k Rule.fwdChunkToHost).foldlM Sending.fire s = some t ∧
      InOrder t.driver t.sent ∧ t.driver.remBytesOut = 0 ∧
      t.driver.inDebugPacket = s.driver.inDebugPacket := by
  induction k generalizing s with
  | zero =>
    rw [Nat.zero_mul] at hbytes
    exact ⟨s, rfl, horder, hbytes, rfl⟩
  | succ k ih =>
    have hpos := beatBytes_pos (P := P)
    have hne : s.driver.remBytesOut ≠ 0 := by
      rw [hbytes, Nat.succ_mul]
      omega
    cases hq : s.driver.toHostCountedQ with
    | nil =>
      rw [hq, List.length_nil] at hlen
      omega
    | cons chunk rest =>
      rw [hq, List.length_cons] at hlen
      obtain ⟨e, o, hfwd⟩ : ∃ e o, s.driver.fwdChunkToHost = some (e, o) := by
        rw [Driver.fwdChunkToHost, hq]
        dsimp only
        rw [if_pos hne]
        exact ⟨_, _, rfl⟩
      obtain ⟨u, hu⟩ : ∃ u, s.fire .fwdChunkToHost = some u := by
        rw [Sending.fire, rule, hfwd]
        exact ⟨_, rfl⟩
      obtain ⟨out, hr, _, _⟩ := Sending.fire_eq_some.mp hu
      obtain ⟨_, ht, _⟩ := sends_eq_some.mp hr
      obtain ⟨c, rest', hq', _, _, he⟩ := fwdChunkToHost_eq_some ht
      obtain ⟨rfl, rfl⟩ := List.cons.inj (hq.symm.trans hq')
      have hbytes' : u.driver.remBytesOut = k * P.beatBytes := by
        rw [he]
        show s.driver.remBytesOut - P.beatBytes = _
        rw [hbytes, Nat.succ_mul, Nat.add_sub_cancel]
      have hlen' : k ≤ u.driver.toHostCountedQ.length := by
        rw [he]
        exact Nat.le_of_succ_le_succ hlen
      have hdebug : u.driver.inDebugPacket = s.driver.inDebugPacket := by
        rw [he]
      obtain ⟨t, hrun, horder', hzero, hsame⟩ := ih hbytes' hlen' (horder.fire hu)
      refine ⟨t, ?_, horder', hzero, hsame.trans hdebug⟩
      rw [List.replicate_succ, List.foldlM_cons, hu]
      exact hrun

/-- Where a message of a packet is open, what its header still asks for is what `remBytesOut`
counts. -/
theorem InOrder.remBytesOut_eq {s : Driver P} {l : List (Out P)} {head : Out P}
    {payload : List (Out P)} (h : InOrder s l)
    (hopen : Open payloadBeats Out.isHead Out.follows l head payload)
    (hstart : head.producer = .start) :
    s.remBytesOut = (payloadBeats head - payload.length) * P.beatBytes ∧
      s.inDebugPacket = false := by
  have hfits : ∀ a b : Out P, a.follows b → ¬ b.isHead := by
    rintro a b hab hb
    rcases hab with ⟨_, hb'⟩ | ⟨_, hb'⟩ <;> simp [Out.isHead, hb'] at hb
  cases h with
  | between _ _ _ hl =>
    have hzero := hl.remaining_eq
    have hlen := hopen.remaining_eq
    obtain ⟨_, _, _, _, hlt, _⟩ := hopen
    omega
  | chunks k head' payload' hbytes hdebug _ hl _ hlen =>
    obtain ⟨rfl, rfl⟩ := hopen.unique hfits hl
    refine ⟨?_, hdebug⟩
    rw [hbytes, ← hlen, Nat.add_sub_cancel_left]
  | history _ head' _ _ _ hl hproducer =>
    obtain ⟨rfl, _⟩ := hopen.unique hfits hl
    rw [hstart] at hproducer
    cases hproducer

/-! ### Before a message -/

/-- The model goes on to write the chunks `l`, of which `l'` are left, and what it wrote crosses. A
debug message that is open ends. -/
inductive Refills (s : Sending P) (l : List (Beat P)) : Sending P → List (Beat P) → Prop
  | refl : Refills s l s l
  | write {t u : Sending P} {chunk : Beat P} {l' : List (Beat P)} : Refills s l t (chunk :: l') →
      t.fire (.write chunk) = some u → Refills s l u l'
  | connect {t u : Sending P} {l' : List (Beat P)} : Refills s l t l' →
      t.fire .connect = some u → Refills s l u l'
  | history {t u : Sending P} {l' : List (Beat P)} : Refills s l t l' →
      t.fire .fwdHistoryFromHost = some u → Refills s l u l'

/-- What waits for the port, and what the model goes on to write. -/
def Sending.toCome (s : Sending P) (l : List (Beat P)) : List (Beat P) :=
  s.driver.toHostCountedQ ++ s.driver.toHostSyncQ ++ l

namespace Refills

variable {s t u : Sending P} {l l' l'' : List (Beat P)}

theorem reachable (hs : (sending P).Reachable s) (h : Refills s l t l') :
    (sending P).Reachable t := by
  induction h with
  | refl => exact hs
  | write _ ht ih => exact ih.step ⟨_, ht⟩
  | connect _ ht ih => exact ih.step ⟨_, ht⟩
  | history _ ht ih => exact ih.step ⟨_, ht⟩

/-- What refilling leaves as it is. -/
structure Kept (t : Sending P) (l' : List (Beat P)) (u : Sending P) (l'' : List (Beat P)) :
    Prop where
  initDone : u.driver.initDone = t.driver.initDone
  inDebugPacket : u.driver.inDebugPacket = t.driver.inDebugPacket
  remBytesOut : u.driver.remBytesOut = t.driver.remBytesOut
  written : u.written ++ l'' = t.written ++ l'
  toCome : u.toCome l'' = t.toCome l'

theorem Kept.refl : Kept t l' t l' := by
  constructor <;> rfl

theorem Kept.trans {v : Sending P} {m : List (Beat P)} (h : Kept t l' u l'')
    (h' : Kept u l'' v m) : Kept t l' v m where
  initDone := h'.initDone.trans h.initDone
  inDebugPacket := h'.inDebugPacket.trans h.inDebugPacket
  remBytesOut := h'.remBytesOut.trans h.remBytesOut
  written := h'.written.trans h.written
  toCome := h'.toCome.trans h.toCome

/-- A chunk that was written crosses. -/
theorem exists_connected (h : Refills s l t l') (hsync : t.driver.toHostSyncQ ≠ [])
    (hroom : t.driver.toHostCountedQ.length < P.countedDepth) :
    ∃ u, Refills s l u l' ∧ Kept t l' u l' ∧
      u.driver.toHostCountedQ.length = t.driver.toHostCountedQ.length + 1 := by
  obtain ⟨c, rest, hq⟩ := List.exists_cons_of_ne_nil hsync
  obtain ⟨e, he, hconnect⟩ : ∃ e, e = { t.driver with
      toHostSyncQ := rest, toHostCountedQ := t.driver.toHostCountedQ ++ [c] } ∧
      t.driver.connect = some e := by
    rw [Driver.connect, hq]
    exact ⟨_, rfl, if_pos hroom⟩
  refine ⟨{ driver := e, written := t.written ++ [], sent := t.sent ++ [] }, h.connect ?_, ?_, ?_⟩
  · rw [Sending.fire, rule, hconnect]
    rfl
  · subst he
    refine ⟨rfl, rfl, rfl, ?_, ?_⟩
    · rw [List.append_nil]
    · simp only [Sending.toCome, hq, List.append_assoc, List.singleton_append]
  · subst he
    rw [List.length_append, List.length_singleton]

/-- A chunk that was written crosses, or one that is written then does. -/
theorem exists_crossed (h : Refills s l t l') (hinit : t.driver.initDone = true)
    (hroom : t.driver.toHostCountedQ.length < P.countedDepth)
    (hmore : t.driver.toHostCountedQ.length < (t.toCome l').length) :
    ∃ u l'', Refills s l u l'' ∧ Kept t l' u l'' ∧
      u.driver.toHostCountedQ.length = t.driver.toHostCountedQ.length + 1 := by
  by_cases hsync : t.driver.toHostSyncQ = []
  · cases l' with
    | nil =>
      rw [Sending.toCome, hsync, List.append_nil, List.append_nil] at hmore
      omega
    | cons c l' =>
      obtain ⟨e, he, hwrite⟩ : ∃ e, e = { t.driver with
          toHostSyncQ := t.driver.toHostSyncQ ++ [c] } ∧ t.driver.write c = some e := by
        rw [Driver.write, hsync]
        exact ⟨_, rfl, if_pos ⟨hinit, Nat.succ_pos _⟩⟩
      have hu : Refills s l { driver := e, written := t.written ++ [c], sent := t.sent ++ [] } l' := by
        refine h.write ?_
        rw [Sending.fire, rule, hwrite]
        rfl
      have hkept : Kept t (c :: l')
          { driver := e, written := t.written ++ [c], sent := t.sent ++ [] } l' := by
        subst he
        refine ⟨rfl, rfl, rfl, ?_, ?_⟩
        · rw [List.append_assoc, List.singleton_append]
        · simp only [Sending.toCome, List.append_assoc, List.singleton_append]
      subst he
      obtain ⟨v, hv, hkept', hlen⟩ := hu.exists_connected (by simp) hroom
      exact ⟨v, l', hv, hkept.trans hkept', hlen⟩
  · obtain ⟨u, hu, hkept, hlen⟩ := h.exists_connected hsync hroom
    exact ⟨u, l', hu, hkept, hlen⟩

/-- As many chunks cross as the queue holds and there are. -/
theorem exists_full {n : ℕ} (h : Refills s l t l') (hinit : t.driver.initDone = true)
    (hn : n ≤ P.countedDepth) (hlen : n ≤ (t.toCome l').length) :
    ∃ u l'', Refills s l u l'' ∧ Kept t l' u l'' ∧ n ≤ u.driver.toHostCountedQ.length := by
  induction n with
  | zero => exact ⟨t, l', h, .refl, Nat.zero_le _⟩
  | succ n ih =>
    obtain ⟨u, m, hu, hkept, hle⟩ := ih (by omega) (by omega)
    by_cases hdone : n + 1 ≤ u.driver.toHostCountedQ.length
    · exact ⟨u, m, hu, hkept, hdone⟩
    · have hinit' := hkept.initDone.trans hinit
      have hmore : u.driver.toHostCountedQ.length < (u.toCome m).length := by
        rw [hkept.toCome]
        omega
      obtain ⟨v, m', hv, hkept', hone⟩ := hu.exists_crossed hinit' (by omega) hmore
      exact ⟨v, m', hv, hkept.trans hkept', by omega⟩

/-- A debug message that is open ends. -/
theorem exists_quiet (horder : InOrder s.driver s.sent) (hzero : s.driver.remBytesOut = 0) :
    ∃ t, Refills s l t l ∧ t.driver.inDebugPacket = false ∧
      t.driver.initDone = s.driver.initDone ∧ t.driver.remBytesOut = 0 ∧
      t.written = s.written ∧ t.toCome l = s.toCome l := by
  cases hdebug : s.driver.inDebugPacket with
  | false => exact ⟨s, .refl, hdebug, rfl, hzero, rfl, rfl⟩
  | true =>
    obtain ⟨hist, hq⟩ : ∃ hist, s.driver.historyRsp = [hist] := by
      cases horder with
      | between _ hfalse =>
        rw [hdebug] at hfalse
        cases hfalse
      | chunks _ _ _ _ hfalse =>
        rw [hdebug] at hfalse
        cases hfalse
      | history hist _ _ _ hrsp => exact ⟨hist, hrsp⟩
    obtain ⟨e, o, he, hfwd⟩ : ∃ e o, e = { s.driver with
        historyRsp := [], inDebugPacket := false } ∧
        s.driver.fwdHistoryFromHost = some (e, o) := by
      rw [Driver.fwdHistoryFromHost, hq]
      exact ⟨_, _, rfl, if_pos hzero⟩
    refine ⟨{ driver := e, written := s.written ++ [], sent := s.sent ++ [o] }, ?_, ?_⟩
    · refine Refills.history .refl ?_
      rw [Sending.fire, rule, hfwd]
      rfl
    · subst he
      exact ⟨rfl, rfl, hzero, List.append_nil _, rfl⟩

end Refills

/-! ### Full packets -/

/-- What waiting for full packets achieves. -/
structure FullPackets (s : Sending P) : Prop where
  /-- What a message that has been begun still has to send is in the queue, and goes out without
  another chunk from the model. -/
  buffered : ∀ head payload, Open payloadBeats Out.isHead Out.follows s.sent head payload →
    head.producer = .start →
      payloadBeats head - payload.length ≤ s.driver.toHostCountedQ.length ∧
        ∃ t, (List.replicate (payloadBeats head - payload.length) Rule.fwdChunkToHost).foldlM
            Sending.fire s = some t ∧ Complete payloadBeats Out.isHead Out.follows t.sent
  /-- Between messages, if what the model wrote and goes on to write is whole packets and not all of
  it has been sent, the next message can be begun some time. -/
  starts : s.driver.remBytesOut = 0 → ∀ (ps : List (Packet P)) (chunks : List (Beat P)),
    s.written ++ chunks = ps.flatMap Packet.stream → s.toCome chunks ≠ [] →
      ∃ t rest, Refills s chunks t rest ∧ t.driver.startBlueNoCPacketToHost.isSome = true
  /-- A queue that takes no more chunks has enough of them. -/
  full : P.countedDepth ≤ s.driver.toHostCountedQ.length →
    s.driver.canStartPacketToHost.isSome = true

/-- Where a message is due, there is a way to begin it. -/
theorem exists_start {s : Sending P} (h : (sending P).Reachable s)
    (hinit : s.driver.initDone = true) (hzero : s.driver.remBytesOut = 0) {ps : List (Packet P)}
    {chunks : List (Beat P)} (hwhole : s.written ++ chunks = ps.flatMap Packet.stream)
    (hne : s.toCome chunks ≠ []) :
    ∃ t rest, Refills s chunks t rest ∧ t.driver.startBlueNoCPacketToHost.isSome = true := by
  obtain ⟨u, hu, hquiet, huinit, huzero, huwritten, hucome⟩ :=
    Refills.exists_quiet (l := chunks) (inOrder_of_sending h) hzero
  obtain ⟨t, rest, ht, hkept, hlen⟩ := hu.exists_full (huinit.trans hinit)
    (Nat.min_le_left P.countedDepth (u.toCome chunks).length) (Nat.min_le_right _ _)
  have hcome : t.toCome rest = s.toCome chunks := hkept.toCome.trans hucome
  have hcan : t.driver.canStartPacketToHost.isSome = true := by
    by_cases hfull : P.countedDepth ≤ t.driver.toHostCountedQ.length
    · exact canStart_of_full hfull
    · -- everything has crossed
      have hall : (t.toCome rest).length ≤ t.driver.toHostCountedQ.length := by
        rw [hkept.toCome]
        omega
      simp only [Sending.toCome, List.length_append] at hall
      have hsync : t.driver.toHostSyncQ = [] := List.eq_nil_of_length_eq_zero (by omega)
      have hrest : rest = [] := List.eq_nil_of_length_eq_zero (by omega)
      have hwritten : t.written = ps.flatMap Packet.stream := by
        rw [← hwhole, ← huwritten, ← hkept.written, hrest, List.append_nil]
      refine canStart_of_complete ?_ ?_
      · rw [← hcome, Sending.toCome, hsync, hrest, List.append_nil, List.append_nil] at hne
        exact hne
      · have hposition := (buffered_of_reachable (ht.reachable h)).position
        rw [hwritten, remaining_packets, hsync, List.append_nil] at hposition
        exact hposition.symm
  exact ⟨t, rest, ht, start_of_canStart hcan (hkept.initDone.trans (huinit.trans hinit))
    (hkept.remBytesOut.trans huzero) (hkept.inDebugPacket.trans hquiet)⟩

/-- **A message that is begun is never starved, and every message can be begun**: whatever the
packets, the host and the order of the rules, where messages wait for all their chunks. -/
theorem full_packets (P : Params) (s : Sending P) (h : (sending P).Reachable s)
    (hwait : s.driver.waitForFullPacket = true) : FullPackets s := by
  have hbuffered := buffered_of_reachable h
  have horder := inOrder_of_sending h
  have hinit : s.driver.initDone = true := by
    cases hdone : s.driver.initDone with
    | true => rfl
    | false =>
      obtain ⟨_, _, _, hfalse⟩ := hbuffered.closed hdone
      rw [hwait] at hfalse
      cases hfalse
  refine ⟨?_, ?_, canStart_of_full⟩
  · intro head payload hopen hstart
    obtain ⟨hbytes, hquiet⟩ := horder.remBytesOut_eq hopen hstart
    obtain ⟨k, _, hk, hle⟩ := hbuffered.out
    have hlen : payloadBeats head - payload.length ≤ s.driver.toHostCountedQ.length := by
      have heq := Nat.eq_of_mul_eq_mul_right (beatBytes_pos (P := P)) (hbytes.symm.trans hk)
      rw [heq]
      exact hle hwait
    obtain ⟨t, hrun, horder', hzero, hsame⟩ := exists_sent hbytes hlen horder
    obtain ⟨_, hcomplete⟩ := horder'.complete hzero (hsame.trans hquiet)
    exact ⟨hlen, t, hrun, hcomplete⟩
  · intro hzero ps chunks hwhole hne
    exact exists_start h hinit hzero hwhole hne

/-- The host asks for full packets; a packet of two chunks, of which one is sent. -/
def fullPacketRules : List (Rule sampleParams) :=
  [.arrive 0x100000000, .initFromHost, .write 0x2, .write 0x11, .write 0x12, .connect, .connect,
    .connect, .startBlueNoCPacketToHost, .fwdChunkToHost]

theorem full_packets_sample : ∃ s : Sending sampleParams, (sending sampleParams).Reachable s ∧
    s.sent.map Out.producer = [.start, .chunk] ∧ s.driver.toHostCountedQ = [0x12] ∧
      FullPackets s := by
  have hrun : (fullPacketRules.foldlM Sending.fire
      { driver := .reset sampleParams, written := [], sent := [] }).map
        (fun s => (s.driver.waitForFullPacket, s.sent.map Out.producer, s.driver.toHostCountedQ)) =
      some (true, [.start, .chunk], [0x12]) := by
    decide +kernel
  obtain ⟨s, hs, heq⟩ := Option.map_eq_some_iff.mp hrun
  obtain ⟨hwait, hrest⟩ := Prod.mk.inj heq
  obtain ⟨hsent, hq⟩ := Prod.mk.inj hrest
  have hreach : (sending sampleParams).Reachable s :=
    TransitionSystem.Reachable.run (M := sending sampleParams) (f := fun r s => Sending.fire s r)
      (fun r _ _ ht => ⟨r, ht⟩) (.init rfl) hs
  exact ⟨s, hreach, hsent, hq, full_packets sampleParams s hreach hwait⟩

end BlueNoC

end PciExpress

end LeapPlatforms
