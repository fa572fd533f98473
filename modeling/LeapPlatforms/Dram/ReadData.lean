import LeapPlatforms.Dram.BankController

/-!
# Read data of a bank

The memory controller returns read data when it likes, and `syncReadDataQ` must have room. The
counter `nInflightReads` on the user's side is what guarantees it: it counts bursts from the request
to the last beat that the user takes. The one read of the initialisation is not counted, but it is
over before the user's first one.

## Main definitions

* `outstanding` — the beats that were asked for and not taken
* `Started`, `Reads` — what holds of them

## Main results

* `Reads.outstanding_le`, `Reads.room`
* `reads_of_reachable`
* `no_read_lost`, `init_read_uncounted`
-/

namespace LeapPlatforms

namespace Dram

variable {P : Params}

/-! ### What is outstanding -/

/-- Whether a request is a read. -/
def Request.isRead : Request P → Bool
  | .read _ => true
  | .write _ => false

/-- How many reads are asked for. -/
def reads (l : List (Request P)) : ℕ := l.countP Request.isRead

@[simp] theorem reads_append (l l' : List (Request P)) : reads (l ++ l') = reads l + reads l' :=
  List.countP_append

@[simp] theorem reads_cons_read (a : Address P) (l : List (Request P)) :
    reads (.read a :: l) = reads l + 1 := List.countP_cons_of_pos rfl

@[simp] theorem reads_cons_write (a : Address P) (l : List (Request P)) :
    reads (.write a :: l) = reads l := List.countP_cons_of_neg Bool.false_ne_true

@[simp] theorem reads_nil : reads ([] : List (Request P)) = 0 := rfl

/-- The beats of reads that are in the request queue, in the memory controller and in
`syncReadDataQ`. -/
def outstanding (s : Bank P) : ℕ :=
  reads s.syncRequestQ * P.burstLength + s.owed + s.syncReadDataQ.length

/-- A bank that has begun to read. -/
structure Started (s : Bank P) : Prop where
  /-- `dramReady` stays. -/
  initDone : s.dramReady = true → s.initDone = true
  /-- The memory controller has no read before. -/
  owed : 0 < s.owed → s.dramReady = true

/-- The counters and what is outstanding. -/
structure Reads (s : Bank P) : Prop where
  /-- A bank that has begun to read. -/
  started : Started s
  /-- The counter does not go past the number of reads there is room for. -/
  inflight_le : s.nInflightReads ≤ P.maxOutstandingReads
  /-- The beats of the first burst that the user has not taken. -/
  burstCnt_lt : s.readBurstCnt < P.burstLength
  /-- The user's reads. -/
  ready : s.state = .ready →
    outstanding s + (P.burstLength - 1 - s.readBurstCnt) = s.nInflightReads * P.burstLength
  /-- The user does not read before. -/
  initial : s.state = .init → s.nInflightReads = 0 ∧ s.readBurstCnt = P.burstLength - 1
  /-- The initialisation's read. -/
  copying : s.state = .init → s.initPhase = 0 → s.initBurstIdx ≤ P.burstLength ∧
    outstanding s = if s.initBurstIdx = 0 then 0 else P.burstLength - (s.initBurstIdx - 1)
  /-- Afterwards it is over. -/
  filling : s.state = .init → s.initPhase = 1 → outstanding s = 0
  /-- Without the patch there is none. -/
  plain : P.initPatch = false → s.state = .init → outstanding s = 0
  /-- What was taken, and what there is to take, is what came. -/
  order : s.delivered ++ s.syncReadDataQ = s.returned
  /-- Nothing was lost. -/
  lost : s.lost = []

variable {s t : Bank P} {r : Rule P}

namespace Reads

theorem burst_le_capacity : P.burstLength ≤ readCapacity P :=
  Nat.le_mul_of_pos_left _ P.maxOutstandingReads_pos

theorem phase_cases (p : BitVec 1) : p = 0 ∨ p = 1 := by
  revert p
  decide

/-- What is outstanding has room. -/
theorem outstanding_le (h : Reads s) : outstanding s ≤ readCapacity P := by
  have hburst := burst_le_capacity (P := P)
  cases hstate : s.state with
  | init =>
    rcases phase_cases s.initPhase with hphase | hphase
    · rw [(h.copying hstate hphase).2]
      split <;> omega
    · rw [h.filling hstate hphase]
      exact Nat.zero_le _
  | ready =>
    have hcount := h.ready hstate
    have hle := Nat.mul_le_mul_right P.burstLength h.inflight_le
    rw [readCapacity]
    omega

/-- What comes has room. -/
theorem room (h : Reads s) (howed : 0 < s.owed) : s.syncReadDataQ.length < readCapacity P := by
  have hle := h.outstanding_le
  rw [outstanding] at hle
  omega

/-- A step that leaves the counters alone, and what is outstanding. -/
theorem frame (h : Reads s) (hstarted : Started t) (hstate : t.state = s.state)
    (hinflight : t.nInflightReads = s.nInflightReads) (hcnt : t.readBurstCnt = s.readBurstCnt)
    (hphase : t.initPhase = s.initPhase) (hidx : t.initBurstIdx = s.initBurstIdx)
    (hout : outstanding t = outstanding s) (horder : t.delivered ++ t.syncReadDataQ = t.returned)
    (hlost : t.lost = []) : Reads t := by
  constructor
  case started => exact hstarted
  case inflight_le => rw [hinflight]; exact h.inflight_le
  case burstCnt_lt => rw [hcnt]; exact h.burstCnt_lt
  case ready => rw [hstate, hout, hcnt, hinflight]; exact h.ready
  case initial => rw [hstate, hcnt, hinflight]; exact h.initial
  case copying => rw [hstate, hphase, hidx, hout]; exact h.copying
  case filling => rw [hstate, hphase, hout]; exact h.filling
  case plain => rw [hstate, hout]; exact h.plain
  case order => exact horder
  case lost => exact hlost

/-! ### Initialisation -/

theorem ready_of_zero (h : Reads s) (hstate : s.state = .init) (hzero : outstanding s = 0) :
    outstanding s + (P.burstLength - 1 - s.readBurstCnt) = s.nInflightReads * P.burstLength := by
  obtain ⟨hinflight, hcnt⟩ := h.initial hstate
  rw [hzero, hinflight, hcnt, Nat.zero_mul]
  omega

theorem initPlain (h : Reads s) (hpatch : P.initPatch = false) (hstate : s.state = .init) :
    Reads { s with state := .ready, initPhase := 1 } := by
  have hzero := h.plain hpatch hstate
  refine ⟨⟨h.started.initDone, h.started.owed⟩, h.inflight_le, h.burstCnt_lt,
    fun _ => h.ready_of_zero hstate hzero, fun hinit => ?_, fun hinit => ?_, fun hinit => ?_,
    fun _ hinit => ?_, h.order, h.lost⟩
  · cases hinit
  · cases hinit
  · cases hinit
  · cases hinit

theorem initRead (h : Reads s) (hpatch : P.initPatch = true) (hstate : s.state = .init)
    (hphase : s.initPhase = 0) (hidx : s.initBurstIdx = 0) :
    Reads { s.initRequest (.read 0) with initBurstIdx := up (burstBits P) s.initBurstIdx } := by
  obtain ⟨_, hzero⟩ := h.copying hstate hphase
  rw [if_pos hidx] at hzero
  have hidx' : up (burstBits P) s.initBurstIdx = 1 := by
    rw [hidx]
    exact up_eq (Nat.lt_of_le_of_lt P.burstLength_pos (burstLength_lt P))
  refine ⟨⟨h.started.initDone, h.started.owed⟩, h.inflight_le, h.burstCnt_lt, fun hready => ?_,
    h.initial, fun _ _ => ⟨?_, ?_⟩, fun _ hfill => ?_, fun hplain => ?_, h.order, h.lost⟩
  · exact absurd (hready.symm.trans hstate) (by decide)
  · show up (burstBits P) s.initBurstIdx ≤ P.burstLength
    rw [hidx']
    exact P.burstLength_pos
  · show reads (s.syncRequestQ ++ [.read 0]) * P.burstLength + s.owed + s.syncReadDataQ.length =
      if up (burstBits P) s.initBurstIdx = 0 then 0
      else P.burstLength - (up (burstBits P) s.initBurstIdx - 1)
    rw [hidx', if_neg Nat.one_ne_zero, reads_append, reads_cons_read, reads_nil, Nat.add_mul,
      Nat.one_mul]
    rw [outstanding] at hzero
    omega
  · exact absurd (hphase.symm.trans hfill) (by decide)
  · rw [hpatch] at hplain
    cases hplain

theorem outstanding_initCopy {data : Beat P} {rest : List (Beat P)}
    (hq : s.syncReadDataQ = data :: rest) : outstanding (s.initCopy data rest) + 1 = outstanding s := by
  rw [Bank.initCopy]
  split <;> split <;> simp [outstanding, Bank.initRequest, Bank.initWrite, hq] <;> omega

theorem initCopy (h : Reads s) (hpatch : P.initPatch = true) (hstate : s.state = .init)
    (hphase : s.initPhase = 0) (hidx : s.initBurstIdx ≠ 0) {data : Beat P} {rest : List (Beat P)}
    (hq : s.syncReadDataQ = data :: rest) : Reads (s.initCopy data rest) := by
  have hpos := P.burstLength_pos
  obtain ⟨hle, hout⟩ := h.copying hstate hphase
  rw [if_neg hidx] at hout
  have hout' := outstanding_initCopy hq
  obtain ⟨hstate', hinflight', hcnt'⟩ : (s.initCopy data rest).state = s.state ∧
      (s.initCopy data rest).nInflightReads = s.nInflightReads ∧
      (s.initCopy data rest).readBurstCnt = s.readBurstCnt := by
    rw [Bank.initCopy]
    split <;> split <;> exact ⟨rfl, rfl, rfl⟩
  constructor
  case started =>
    rw [Bank.initCopy]
    split <;> split <;> exact ⟨h.started.initDone, h.started.owed⟩
  case inflight_le => rw [hinflight']; exact h.inflight_le
  case burstCnt_lt => rw [hcnt']; exact h.burstCnt_lt
  case ready =>
    intro hready
    rw [hstate'] at hready
    exact absurd (hready.symm.trans hstate) (by decide)
  case initial => rw [hstate', hinflight', hcnt']; exact h.initial
  case copying =>
    intro _ hphase'
    by_cases hlast : s.initBurstIdx = P.burstLength
    · rw [Bank.initCopy, if_pos hlast] at hphase'
      have hone : (1 : BitVec 1) = 0 := hphase'
      exact absurd hone (by decide)
    · have hidx' : (s.initCopy data rest).initBurstIdx = s.initBurstIdx + 1 := by
        rw [Bank.initCopy, if_neg hlast]
        exact up_eq (Nat.lt_of_le_of_lt (by omega) (burstLength_lt P))
      rw [hidx', if_neg (by omega)]
      omega
  case filling =>
    intro _ hphase'
    by_cases hlast : s.initBurstIdx = P.burstLength
    · omega
    · rw [Bank.initCopy, if_neg hlast] at hphase'
      have hzero : s.initPhase = 1 := by
        split at hphase' <;> exact hphase'
      exact absurd (hphase.symm.trans hzero) (by decide)
  case plain =>
    intro hplain
    rw [hpatch] at hplain
    cases hplain
  case order =>
    have horder := h.order
    rw [hq] at horder
    rw [Bank.initCopy]
    split <;> split <;> simpa [Bank.initRequest, Bank.initWrite] using horder
  case lost =>
    rw [Bank.initCopy]
    split <;> split <;> exact h.lost

theorem initFill (h : Reads s) (hpatch : P.initPatch = true) (hstate : s.state = .init)
    (hphase : s.initPhase = 1) : Reads s.initFill := by
  have hzero := h.filling hstate hphase
  have hout' : outstanding s.initFill = outstanding s := by
    rw [Bank.initFill]
    split <;> split <;> simp [outstanding, Bank.initRequest, Bank.initWrite]
  obtain ⟨hphase', hinflight', hcnt'⟩ : s.initFill.initPhase = s.initPhase ∧
      s.initFill.nInflightReads = s.nInflightReads ∧
      s.initFill.readBurstCnt = s.readBurstCnt := by
    rw [Bank.initFill]
    split <;> split <;> exact ⟨rfl, rfl, rfl⟩
  constructor
  case started =>
    rw [Bank.initFill]
    split <;> split <;> exact ⟨h.started.initDone, h.started.owed⟩
  case inflight_le => rw [hinflight']; exact h.inflight_le
  case burstCnt_lt => rw [hcnt']; exact h.burstCnt_lt
  case ready =>
    intro _
    rw [hout', hcnt', hinflight']
    exact h.ready_of_zero hstate hzero
  case initial =>
    intro _
    rw [hinflight', hcnt']
    exact h.initial hstate
  case copying =>
    intro _ hcopy
    rw [hphase'] at hcopy
    exact absurd (hphase.symm.trans hcopy) (by decide)
  case filling =>
    intro _ _
    rw [hout', hzero]
  case plain =>
    intro hplain
    rw [hpatch] at hplain
    cases hplain
  case order =>
    rw [Bank.initFill]
    split <;> split <;> exact h.order
  case lost =>
    rw [Bank.initFill]
    split <;> split <;> exact h.lost

/-! ### The user -/

theorem readRspLast (h : Reads s) {d : Beat P} {rest : List (Beat P)} (hstate : s.state = .ready)
    (hq : s.syncReadDataQ = d :: rest) (hcnt : s.readBurstCnt = 0) :
    Reads { s with
      syncReadDataQ := rest
      delivered := s.delivered ++ [d]
      nInflightReads := down (inflightBits P) s.nInflightReads
      readBurstCnt := P.burstLength - 1 } := by
  have hpos := P.burstLength_pos
  have hready := h.ready hstate
  have hlt := Nat.lt_of_le_of_lt h.inflight_le (maxOutstandingReads_lt P)
  rw [outstanding, hq, List.length_cons, hcnt] at hready
  -- the last beat of a burst that was counted
  obtain ⟨n, hn⟩ : ∃ n, s.nInflightReads = n + 1 := by
    refine ⟨s.nInflightReads - 1, ?_⟩
    have hne : s.nInflightReads ≠ 0 := by
      intro hzero
      rw [hzero, Nat.zero_mul] at hready
      omega
    omega
  have hdown : down (inflightBits P) s.nInflightReads = n := by
    rw [down_eq hlt (by omega), hn]
    rfl
  rw [hdown]
  rw [hn, Nat.add_mul, Nat.one_mul] at hready
  have hle := h.inflight_le
  have horder := h.order
  rw [hq] at horder
  refine ⟨⟨h.started.initDone, h.started.owed⟩, ?_, ?_, fun _ => ?_, fun hinit => ?_,
    fun hinit => ?_, fun hinit => ?_, fun _ hinit => ?_, by simpa using horder, h.lost⟩
  · show n ≤ P.maxOutstandingReads
    omega
  · show P.burstLength - 1 < P.burstLength
    omega
  · show reads s.syncRequestQ * P.burstLength + s.owed + rest.length +
      (P.burstLength - 1 - (P.burstLength - 1)) = n * P.burstLength
    omega
  · exact absurd (hstate.symm.trans hinit) (by decide)
  · exact absurd (hstate.symm.trans hinit) (by decide)
  · exact absurd (hstate.symm.trans hinit) (by decide)
  · exact absurd (hstate.symm.trans hinit) (by decide)

theorem readRsp (h : Reads s) {d : Beat P} {rest : List (Beat P)} (hstate : s.state = .ready)
    (hq : s.syncReadDataQ = d :: rest) (hcnt : s.readBurstCnt ≠ 0) :
    Reads { s with
      syncReadDataQ := rest
      delivered := s.delivered ++ [d]
      readBurstCnt := down (burstBits P) s.readBurstCnt } := by
  have hready := h.ready hstate
  have hlt := h.burstCnt_lt
  rw [outstanding, hq, List.length_cons] at hready
  have hdown : down (burstBits P) s.readBurstCnt = s.readBurstCnt - 1 :=
    down_eq (Nat.lt_trans hlt (burstLength_lt P)) (by omega)
  rw [hdown]
  have horder := h.order
  rw [hq] at horder
  refine ⟨⟨h.started.initDone, h.started.owed⟩, h.inflight_le, ?_, fun _ => ?_, fun hinit => ?_,
    fun hinit => ?_, fun hinit => ?_, fun _ hinit => ?_, by simpa using horder, h.lost⟩
  · show s.readBurstCnt - 1 < P.burstLength
    omega
  · show reads s.syncRequestQ * P.burstLength + s.owed + rest.length +
      (P.burstLength - 1 - (s.readBurstCnt - 1)) = s.nInflightReads * P.burstLength
    omega
  · exact absurd (hstate.symm.trans hinit) (by decide)
  · exact absurd (hstate.symm.trans hinit) (by decide)
  · exact absurd (hstate.symm.trans hinit) (by decide)
  · exact absurd (hstate.symm.trans hinit) (by decide)

theorem doReadReq (h : Reads s) (addr : Address P) (rest : List (Request P))
    (hstate : s.state = .ready) (hlt : s.nInflightReads < P.maxOutstandingReads) :
    Reads { s with
      commandQ := rest
      syncRequestQ := s.syncRequestQ ++ [.read addr]
      nInflightReads := up (inflightBits P) s.nInflightReads } := by
  have hready := h.ready hstate
  rw [outstanding] at hready
  have hup : up (inflightBits P) s.nInflightReads = s.nInflightReads + 1 :=
    up_eq (Nat.lt_of_le_of_lt hlt (maxOutstandingReads_lt P))
  rw [hup]
  refine ⟨⟨h.started.initDone, h.started.owed⟩, hlt, h.burstCnt_lt, fun _ => ?_, fun hinit => ?_,
    fun hinit => ?_, fun hinit => ?_, fun _ hinit => ?_, h.order, h.lost⟩
  · show reads (s.syncRequestQ ++ [.read addr]) * P.burstLength + s.owed + s.syncReadDataQ.length +
      (P.burstLength - 1 - s.readBurstCnt) = (s.nInflightReads + 1) * P.burstLength
    rw [reads_append, reads_cons_read, reads_nil, Nat.zero_add, Nat.add_mul, Nat.add_mul,
      Nat.one_mul, ← hready]
    omega
  · exact absurd (hstate.symm.trans hinit) (by decide)
  · exact absurd (hstate.symm.trans hinit) (by decide)
  · exact absurd (hstate.symm.trans hinit) (by decide)
  · exact absurd (hstate.symm.trans hinit) (by decide)

/-! ### Steps -/

theorem step (h : Reads s) (hr : Step r s t) : Reads t := by
  have hstarted : Started s := h.started
  cases hr with
  | initDoneSet =>
    exact h.frame ⟨fun _ => rfl, hstarted.owed⟩ rfl rfl rfl rfl rfl rfl h.order h.lost
  | dramReadyInit =>
    rw [Bank.dramReadyInit]
    split
    · next hdone =>
      refine h.frame ⟨fun _ => hdone, fun howed => ?_⟩ rfl rfl rfl rfl rfl rfl h.order h.lost
      show (s.dramReady || _) = true
      rw [hstarted.owed howed, Bool.true_or]
    · next hdone =>
      refine h.frame ⟨fun hready => ?_, fun howed => ?_⟩ rfl rfl rfl rfl rfl rfl h.order h.lost
      · cases hready
      · exact absurd (hstarted.initDone (hstarted.owed howed)) hdone
  | initPlain hpatch hstate => exact h.initPlain hpatch hstate
  | initRead hpatch hstate hphase hidx => exact h.initRead hpatch hstate hphase hidx
  | initCopy hpatch hstate hphase hidx hq => exact h.initCopy hpatch hstate hphase hidx hq
  | initFill hpatch hstate hphase => exact h.initFill hpatch hstate hphase
  | readRspLast hstate hq hcnt => exact h.readRspLast hstate hq hcnt
  | readRsp hstate hq hcnt => exact h.readRsp hstate hq hcnt
  | doReadReq _ hstate hlt => exact h.doReadReq _ _ hstate hlt
  | @doWriteReq _ addr _ _ _ =>
    refine h.frame ⟨hstarted.initDone, hstarted.owed⟩ rfl rfl rfl rfl rfl ?_ h.order h.lost
    show reads (s.syncRequestQ ++ [.write addr]) * P.burstLength + _ + _ = _
    rw [reads_append, reads_cons_write, reads_nil, Nat.add_zero, outstanding]
  | @processReadRequest _ addr rest hq hready =>
    refine h.frame ⟨hstarted.initDone, fun _ => hready⟩ rfl rfl rfl rfl rfl ?_ h.order h.lost
    show reads rest * P.burstLength + (s.owed + P.burstLength) + s.syncReadDataQ.length = _
    rw [outstanding, hq, reads_cons_read, Nat.add_mul]
    omega
  | @processWriteRequest _ addr rest _ _ hq _ _ =>
    refine h.frame ⟨hstarted.initDone, hstarted.owed⟩ rfl rfl rfl rfl rfl ?_ h.order h.lost
    rw [outstanding, outstanding, hq, reads_cons_write]
  | @processWriteRequest0 _ addr rest hq _ _ _ =>
    refine h.frame ⟨hstarted.initDone, hstarted.owed⟩ rfl rfl rfl rfl rfl ?_ h.order h.lost
    rw [outstanding, outstanding, hq, reads_cons_write]
  | readDataToBuffer data howed hready _ =>
    refine h.frame ⟨hstarted.initDone, fun _ => hready⟩ rfl rfl rfl rfl rfl ?_ ?_ h.lost
    · show reads s.syncRequestQ * P.burstLength + (s.owed - 1) +
        (s.syncReadDataQ ++ [data]).length = outstanding s
      rw [outstanding, List.length_append, List.length_singleton]
      omega
    · show s.delivered ++ (s.syncReadDataQ ++ [data]) = s.returned ++ [data]
      rw [← List.append_assoc, h.order]
  | loseData data howed hfull => exact absurd ⟨hstarted.owed howed, h.room howed⟩ hfull
  | _ => exact h.frame ⟨hstarted.initDone, hstarted.owed⟩ rfl rfl rfl rfl rfl rfl h.order h.lost

end Reads

theorem reads_of_reachable (hs : (bank P).Reachable s) : Reads s := by
  refine hs.invariant ?_ ?_
  · rintro _ ⟨w, rfl⟩
    have hpos := P.burstLength_pos
    refine ⟨⟨fun hready => ?_, fun howed => ?_⟩, Nat.zero_le _, ?_, fun hready => ?_,
      fun _ => ⟨rfl, rfl⟩, fun _ _ => ⟨Nat.zero_le _, ?_⟩, fun _ hfill => ?_, fun _ _ => ?_, rfl,
      rfl⟩
    · cases hready
    · cases howed
    · show P.burstLength - 1 < P.burstLength
      omega
    · cases hready
    · show 0 * P.burstLength + 0 + 0 = 0
      omega
    · show 0 * P.burstLength + 0 + 0 = 0
      omega
    · show 0 * P.burstLength + 0 + 0 = 0
      omega
  · rintro s t h ⟨r, hr⟩
    exact h.step (rule_step hr)

/-! ### No read data is lost -/

/-- **No read data is lost.** What is outstanding is what the counter says, once the user may read;
it always has room, and nothing is lost. -/
theorem no_read_lost (hs : (bank P).Reachable s) :
    (s.state = .ready → s.readBurstCnt < P.burstLength ∧
      outstanding s = s.nInflightReads * P.burstLength - (P.burstLength - 1 - s.readBurstCnt)) ∧
    (s.state = .init → s.nInflightReads = 0 ∧ outstanding s ≤ P.burstLength) ∧
    outstanding s ≤ readCapacity P ∧
    (0 < s.owed → s.dramReady = true ∧ s.syncReadDataQ.length < readCapacity P) ∧
    s.lost = [] ∧ s.delivered ++ s.syncReadDataQ = s.returned := by
  have h := reads_of_reachable hs
  refine ⟨fun hstate => ⟨h.burstCnt_lt, ?_⟩, fun hstate => ⟨(h.initial hstate).1, ?_⟩,
    h.outstanding_le, fun howed => ⟨h.started.owed howed, h.room howed⟩, h.lost, h.order⟩
  · have hready := h.ready hstate
    omega
  · rcases Reads.phase_cases s.initPhase with hphase | hphase
    · rw [(h.copying hstate hphase).2]
      split <;> omega
    · rw [h.filling hstate hphase]
      exact Nat.zero_le _

/-- A bank that initialises its memory of two words, with bursts of two beats. -/
def patched : Params where
  bytesPerBeat := 1
  wordsPerBeat := 1
  addressBits := 1
  burstLength := 2
  burstLength_pos := Nat.two_pos
  maxOutstandingReads := 1
  maxOutstandingReads_pos := Nat.one_pos
  initPatch := true

/-- A run of it. -/
theorem reachable_patched (rs : List (Rule patched)) {t : Bank patched}
    (h : rs.foldlM (fun s r => rule r s) (.started fun _ => (0, 0)) = some t) :
    (bank patched).Reachable t := by
  have hstart : (bank patched).Reachable (.started fun _ => (0, 0)) :=
    reachable_started ⟨_, rfl⟩ fun r _ _ _ hr => ⟨r, hr⟩
  refine hstart.run (fun r s t hr => ?_) h
  exact ⟨r, hr⟩

/-- After the initialisation the user's read is counted, and its beats have room. -/
theorem no_read_lost_patched : ∃ s : Bank patched, s.nInflightReads = 1 ∧ s.owed = 1 ∧
    s.syncReadDataQ = [4] ∧ outstanding s ≤ readCapacity patched ∧ s.lost = [] := by
  have hrun := reachable_patched [.initPhase0, .processReadRequest, .readDataToBuffer 1,
    .readDataToBuffer 2, .initPhase0, .initPhase0, .initPhase1, .initPhase1, .command (.read 0),
    .doReadReq, .copyWriteData, .copyWriteData, .processWriteRequest0, .processWriteRequest1,
    .copyWriteData, .copyWriteData, .processWriteRequest0, .processWriteRequest1,
    .processReadRequest, .readDataToBuffer 4] rfl
  obtain ⟨_, _, hle, _, hlost, _⟩ := no_read_lost hrun
  exact ⟨_, rfl, rfl, rfl, hle, hlost⟩

/-- The read of the initialisation is outstanding and not counted. -/
theorem init_read_uncounted : ∃ s : Bank patched, (bank patched).Reachable s ∧
    s.nInflightReads = 0 ∧ outstanding s = 2 ∧
    outstanding s ≠
      s.nInflightReads * patched.burstLength - (patched.burstLength - 1 - s.readBurstCnt) :=
  ⟨_, reachable_patched [.initPhase0] rfl, rfl, rfl, by decide⟩

end Dram

end LeapPlatforms
