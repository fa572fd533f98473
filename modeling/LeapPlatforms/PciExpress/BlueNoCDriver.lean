import LeapPlatforms.Foundation.TransitionSystem
import Mathlib.Data.BitVec
import Mathlib.Algebra.Order.Ring.Nat

/-!
# The driver `pcie-bluenoc`

UMF packets between the model and the host, over a port that carries BlueNoC messages. A UMF packet
is a header chunk, which says how many chunks follow, and these chunks; a BlueNoC message is a
header beat, which says how many bytes follow its fourth, and as many beats as they fill. A long
packet goes into several messages; only the first has the UMF header in it.

`beatsIn` and `beatsOut` are the port's queues. The port takes a beat out of `beatsOut` at any time,
so a rule that sends never waits for it. A beat sent carries a note of the rule that sent it, which
no rule reads. A rule that fills a queue in one of its branches waits for that queue in that branch.

## Main definitions

* `BlueNoC.Params`, `Beat`, `Out`
* `headerBeat`, `lengthOf`, `numChunks` — the fields of a header
* `Driver` — the registers and queues, and the rules on them
* `Rule`, `rule`
-/

namespace LeapPlatforms

namespace PciExpress

namespace BlueNoC

/-- What an instance of the module is built with. -/
structure Params where
  /-- `PCIE_BYTES_PER_BEAT`. -/
  beatBytes : ℕ
  /-- The beats that a header fits and a message is not too short for. -/
  beatBytes_eq : beatBytes = 8 ∨ beatBytes = 16
  /-- `UMF_MSG_LENGTH_BITS`. -/
  lengthBits : ℕ
  /-- The length of a message in chunks fits. -/
  lengthBits_ge : 256 / beatBytes - 1 < 2 ^ lengthBits
  /-- A length fits the field of the debug response. -/
  lengthBits_le : lengthBits ≤ 16
  /-- `BLUENOC_HISTORY_INDEX_BITS`. -/
  historyIndexBits : ℕ

variable (P : Params)

namespace Params

/-- The bits of a beat, and of a UMF chunk. -/
abbrev width : ℕ := 8 * P.beatBytes

/-- `maxChunksPerPacket`: the payload of the longest BlueNoC message. -/
def maxChunksPerPacket : ℕ := 256 / P.beatBytes - 1

/-- `header_data_bytes`: the bytes of a header beat that are payload. -/
def headerDataBytes : ℕ := P.beatBytes - 4

/-- The depth of `toHostCountedQ`: two BlueNoC messages. -/
def countedDepth : ℕ := 512 / P.beatBytes

end Params

/-- A beat, and a UMF chunk. -/
abbrev Beat : Type := BitVec P.width

/-- The rules that send beats. -/
inductive Producer
  | start
  | chunk
  | timeout
  | debug
  | history
  deriving DecidableEq, Repr

/-- A beat sent. -/
structure Out where
  /-- What is sent. -/
  beat : Beat P
  /-- A note of the rule that sent it. -/
  producer : Producer

variable {P}

/-! ### Fields -/

/-- `lo + w - 1 : lo` of a beat replaced. -/
def setField {n : ℕ} (x : BitVec n) (lo : ℕ) {w : ℕ} (v : BitVec w) : BitVec n :=
  x &&& ~~~((BitVec.allOnes w).setWidth n <<< lo) ||| v.setWidth n <<< lo

/-- The first 64 bits of a header beat: `{umf_header, flags, length, source, destination}`. -/
def headerWord (umfHeader : BitVec 32) (flags length source destination : BitVec 8) : BitVec 64 :=
  umfHeader ++ flags ++ length ++ source ++ destination

/-- A header beat. -/
def headerBeat (umfHeader : BitVec 32) (flags length source destination : BitVec 8) : Beat P :=
  (headerWord umfHeader flags length source destination).setWidth P.width

/-- The destination of a message. -/
def destinationOf (beat : Beat P) : BitVec 8 := beat.extractLsb' 0 8

/-- The source of a message. -/
def sourceOf (beat : Beat P) : BitVec 8 := beat.extractLsb' 8 8

/-- The length of a message: the bytes after the fourth. -/
def lengthOf (beat : Beat P) : ℕ := (beat.extractLsb' 16 8).toNat

/-- The high bit of the flags of a message: no UMF header is in it. -/
def isContinuation (beat : Beat P) : Bool := beat.getLsbD 31

/-- The UMF header in a header beat. -/
def umfHeaderOf (beat : Beat P) : BitVec 32 := beat.extractLsb' 32 32

/-- `numChunks` of a UMF header. -/
def numChunks (chunk : Beat P) : ℕ := (chunk.extractLsb' 0 P.lengthBits).toNat

/-- The port that debug messages come to. -/
def debugPort : BitVec 8 := 0xff

theorem getLsbD_setField {n w : ℕ} (x : BitVec n) (lo : ℕ) (v : BitVec w) {i : ℕ} (hi : i < n) :
    (setField x lo v).getLsbD i =
      if lo ≤ i ∧ i < lo + w then v.getLsbD (i - lo) else x.getLsbD i := by
  simp only [setField, BitVec.getLsbD_or, BitVec.getLsbD_and, BitVec.getLsbD_not,
    BitVec.getLsbD_shiftLeft, BitVec.getLsbD_setWidth, BitVec.getLsbD_allOnes, hi, decide_true,
    Bool.true_and]
  by_cases hlo : lo ≤ i
  · have hn : i - lo < n := by omega
    by_cases hw : i < lo + w
    · simp [hlo, hw, hn, show ¬ i < lo by omega, show i - lo < w by omega]
    · simp [hlo, hw, hn, show ¬ i < lo by omega, show ¬ i - lo < w by omega,
        BitVec.getLsbD_of_ge v (i - lo) (by omega)]
  · simp [hlo, show i < lo by omega]

/-- A field that was replaced. -/
theorem extractLsb'_setField {n w : ℕ} (x : BitVec n) (lo : ℕ) (v : BitVec w) (h : lo + w ≤ n) :
    (setField x lo v).extractLsb' lo w = v := by
  refine BitVec.eq_of_getLsbD_eq fun i hi => ?_
  rw [BitVec.getLsbD_extractLsb', getLsbD_setField _ _ _ (by omega), if_pos (by omega)]
  simp [hi]

/-- A field beside one that was replaced. -/
theorem extractLsb'_setField_of_disjoint {n w : ℕ} (x : BitVec n) (lo : ℕ) (v : BitVec w)
    {lo' w' : ℕ} (h : lo' + w' ≤ n) (hd : lo' + w' ≤ lo ∨ lo + w ≤ lo') :
    (setField x lo v).extractLsb' lo' w' = x.extractLsb' lo' w' := by
  refine BitVec.eq_of_getLsbD_eq fun i hi => ?_
  rw [BitVec.getLsbD_extractLsb', BitVec.getLsbD_extractLsb', getLsbD_setField _ _ _ (by omega),
    if_neg (by omega)]

theorem width_ge : 64 ≤ P.width := by
  rcases P.beatBytes_eq with h | h <;> simp [Params.width, h]

section HeaderBeat

variable (umfHeader : BitVec 32) (flags length source destination : BitVec 8)

/-- The fields of a header beat are those of its first 64 bits. -/
theorem extractLsb'_headerBeat {lo w : ℕ} (h : lo + w ≤ 64) :
    (headerBeat (P := P) umfHeader flags length source destination).extractLsb' lo w =
      (headerWord umfHeader flags length source destination).extractLsb' lo w := by
  have hwidth := width_ge (P := P)
  refine BitVec.eq_of_getLsbD_eq fun i hi => ?_
  rw [headerBeat, BitVec.getLsbD_extractLsb', BitVec.getLsbD_extractLsb', BitVec.getLsbD_setWidth]
  simp [show lo + i < P.width by omega]

@[simp] theorem destinationOf_headerBeat :
    destinationOf (P := P) (headerBeat umfHeader flags length source destination) =
      destination := by
  rw [destinationOf, extractLsb'_headerBeat _ _ _ _ _ (by decide), headerWord,
    BitVec.extractLsb'_append_eq_of_add_le (by decide)]
  simp

@[simp] theorem lengthOf_headerBeat :
    lengthOf (P := P) (headerBeat umfHeader flags length source destination) = length.toNat := by
  rw [lengthOf, extractLsb'_headerBeat _ _ _ _ _ (by decide), headerWord,
    BitVec.extractLsb'_append_eq_of_le (by decide), BitVec.extractLsb'_append_eq_of_le (by decide),
    BitVec.extractLsb'_append_eq_of_add_le (by decide)]
  simp

@[simp] theorem umfHeaderOf_headerBeat :
    umfHeaderOf (P := P) (headerBeat umfHeader flags length source destination) = umfHeader := by
  rw [umfHeaderOf, extractLsb'_headerBeat _ _ _ _ _ (by decide), headerWord,
    BitVec.extractLsb'_append_eq_of_le (by decide), BitVec.extractLsb'_append_eq_of_le (by decide),
    BitVec.extractLsb'_append_eq_of_le (by decide), BitVec.extractLsb'_append_eq_of_le (by decide)]
  simp

@[simp] theorem isContinuation_headerBeat :
    isContinuation (P := P) (headerBeat umfHeader flags length source destination) =
      flags.getLsbD 7 := by
  have hwidth := width_ge (P := P)
  rw [isContinuation, headerBeat, BitVec.getLsbD_setWidth, headerWord,
    decide_eq_true (show 31 < P.width by omega), Bool.true_and, BitVec.getLsbD_append,
    if_neg (by decide), BitVec.getLsbD_append, if_neg (by decide), BitVec.getLsbD_append,
    if_neg (by decide), BitVec.getLsbD_append, if_pos (by decide)]

end HeaderBeat

/-! ### The module -/

variable (P) in
/-- The registers and queues of the module. -/
structure Driver where
  /-- `beatsIn`: beats from the port. -/
  beatsIn : List (Beat P)
  /-- `fromHostSyncQ`: chunks for the model. -/
  fromHostSyncQ : List (Beat P)
  /-- `toHostSyncQ`: chunks from the model. -/
  toHostSyncQ : List (Beat P)
  /-- `toHostCountedQ`: the chunks on this side of the clock crossing. -/
  toHostCountedQ : List (Beat P)
  /-- `inactiveOutCnt`: cycles to the next flush. -/
  inactiveOutCnt : ℕ
  /-- `maxTimeout`. -/
  maxTimeout : ℕ
  /-- `waitForFullPacket`: a message is not begun before it is all there. -/
  waitForFullPacket : Bool
  /-- `initDone`: the host has sent its first beat. -/
  initDone : Bool
  /-- `inDebugPacket`: a debug message waits for its payload. -/
  inDebugPacket : Bool
  /-- `historyFromHost`: the memory. -/
  historyFromHost : BitVec P.historyIndexBits → Beat P
  /-- `historyFromHost`: the values read and not yet given back. -/
  historyRsp : List (Beat P)
  /-- `historyFromHostNext`. -/
  historyFromHostNext : BitVec P.historyIndexBits
  /-- `historyDumpIdx`. -/
  historyDumpIdx : BitVec P.historyIndexBits
  /-- `remBytesIn`: bytes remaining in the current incoming message. -/
  remBytesIn : ℕ
  /-- `remBytesOut`: bytes remaining in the current outgoing message. -/
  remBytesOut : ℕ
  /-- `remChunksOut`: chunks remaining in the current UMF packet. -/
  remChunksOut : ℕ

/-- `PHYSICAL_CHANNEL_TO_HOST_STATE`. -/
structure ToHostState where
  /-- `isUMFStart`: this message is the start of a UMF packet. -/
  isUMFStart : Bool
  /-- `bnChunks`: chunks in the message. -/
  bnChunks : ℕ
  /-- `umfChunks`: chunks remaining in the packet. -/
  umfChunks : ℕ

namespace Driver

variable (P) in
/-- The driver after reset. -/
def reset : Driver P where
  beatsIn := []
  fromHostSyncQ := []
  toHostSyncQ := []
  toHostCountedQ := []
  inactiveOutCnt := 0
  maxTimeout := 0
  waitForFullPacket := false
  initDone := false
  inDebugPacket := false
  historyFromHost := fun _ => BitVec.allOnes _
  historyRsp := []
  historyFromHostNext := 0
  historyDumpIdx := 0
  remBytesIn := 0
  remBytesOut := 0
  remChunksOut := 0

/-- `logHistoryFromHost`. -/
def logHistoryFromHost (chunk : Beat P) (s : Driver P) : Driver P :=
  { s with
    historyFromHost := fun i => if i = s.historyFromHostNext then chunk else s.historyFromHost i
    historyFromHostNext := s.historyFromHostNext + 1 }

/-- The port has a beat for the module. -/
def arrive (beat : Beat P) (s : Driver P) : Driver P := { s with beatsIn := s.beatsIn ++ [beat] }

/-- The model's `write`. -/
def write (chunk : Beat P) (s : Driver P) : Option (Driver P) :=
  if s.initDone = true ∧ s.toHostSyncQ.length < 8 then
    some { s with toHostSyncQ := s.toHostSyncQ ++ [chunk] }
  else none

/-- The model's `read`. -/
def read (s : Driver P) : Option (Driver P) :=
  match s.fromHostSyncQ with
  | [] => none
  | _ :: rest => some { s with fromHostSyncQ := rest }

/-- The connection of `toHostSyncQ` with `toHostCountedQ`. -/
def connect (s : Driver P) : Option (Driver P) :=
  match s.toHostSyncQ with
  | [] => none
  | chunk :: rest =>
    if s.toHostCountedQ.length < P.countedDepth then
      some { s with toHostSyncQ := rest, toHostCountedQ := s.toHostCountedQ ++ [chunk] }
    else none

/-- `rule initFromHost`. -/
def initFromHost (s : Driver P) : Option (Driver P) :=
  match s.beatsIn with
  | [] => none
  | beat :: rest =>
    if s.initDone = false then
      some { s with
        beatsIn := rest
        initDone := true
        waitForFullPacket := beat.getLsbD 32
        maxTimeout := (beat.extractLsb' 33 11).toNat }
    else none

/-- `hist_log_beat`: a header beat as the history has it. -/
def histLogBeat (beat : Beat P) : Beat P :=
  let histTag : BitVec 32 := if isContinuation beat then 0xdeadbeef else 0xcafef00d
  (histTag ++ beat.extractLsb' 0 64).setWidth P.width

/-- `rule processHeaderFromHost`. -/
def processHeaderFromHost (s : Driver P) : Option (Driver P) :=
  match s.beatsIn with
  | [] => none
  | beat :: rest =>
    if s.initDone = true ∧ s.remBytesIn = 0 ∧ destinationOf beat ≠ debugPort then
      let remBytesIn := lengthOf beat
      let s := { s with
        beatsIn := rest
        remBytesIn :=
          if P.headerDataBytes < remBytesIn then remBytesIn - P.headerDataBytes else s.remBytesIn }
      let s := s.logHistoryFromHost (histLogBeat beat)
      if isContinuation beat then some s
      else if s.fromHostSyncQ.length < 8 then
        some { s with fromHostSyncQ := s.fromHostSyncQ ++ [(umfHeaderOf beat).setWidth P.width] }
      else none
    else none

/-- `rule fwdChunkFromHost`. -/
def fwdChunkFromHost (s : Driver P) : Option (Driver P) :=
  match s.beatsIn with
  | [] => none
  | beat :: rest =>
    if s.initDone = true ∧ s.remBytesIn ≠ 0 ∧ s.fromHostSyncQ.length < 8 then
      some ({ s with
        beatsIn := rest
        fromHostSyncQ := s.fromHostSyncQ ++ [beat]
        remBytesIn :=
          if P.beatBytes < s.remBytesIn then s.remBytesIn - P.beatBytes else 0 }.logHistoryFromHost
            beat)
    else none

/-- `canStartPacketToHost`. -/
def canStartPacketToHost (s : Driver P) : Option ToHostState :=
  match s.toHostCountedQ with
  | [] => none
  | first :: _ =>
    let isUMFStart := s.remChunksOut == 0
    let umfChunks := if isUMFStart then numChunks first else s.remChunksOut
    let bnPayloadChunks := min umfChunks P.maxChunksPerPacket
    -- GT at the start because there must also be a packet header
    let dataReady :=
      if isUMFStart then decide (bnPayloadChunks < s.toHostCountedQ.length)
      else decide (bnPayloadChunks ≤ s.toHostCountedQ.length)
    if dataReady || !s.waitForFullPacket then
      some { isUMFStart := isUMFStart, bnChunks := bnPayloadChunks % 2 ^ 8, umfChunks := umfChunks }
    else none

/-- The flags of a message to the host. -/
def flagsToHost (state : ToHostState) (s : Driver P) : BitVec 8 :=
  BitVec.ofBool (!state.isUMFStart) ++ (0 : BitVec 6) ++
    BitVec.ofBool (s.maxTimeout == 0 && decide (state.umfChunks ≤ P.maxChunksPerPacket))

/-- `rule startBlueNoCPacketToHost`. -/
def startBlueNoCPacketToHost (s : Driver P) : Option (Driver P × Out P) :=
  match s.toHostCountedQ, s.canStartPacketToHost with
  | chunk :: rest, some state =>
    if s.initDone = true ∧ s.remBytesOut = 0 ∧ s.inDebugPacket = false then
      let remBytesOut := state.bnChunks * P.beatBytes % 2 ^ 8
      let len := (remBytesOut + P.headerDataBytes) % 2 ^ 8
      some ({ s with
          toHostCountedQ := if state.isUMFStart then rest else s.toHostCountedQ
          remBytesOut := remBytesOut
          remChunksOut := state.umfChunks
          inactiveOutCnt := s.maxTimeout },
        { beat := headerBeat (chunk.extractLsb' 0 32) (flagsToHost state s) (BitVec.ofNat 8 len) 4 0
          producer := .start })
    else none
  | _, _ => none

/-- `rule fwdChunkToHost`. -/
def fwdChunkToHost (s : Driver P) : Option (Driver P × Out P) :=
  match s.toHostCountedQ with
  | [] => none
  | chunk :: rest =>
    if s.remBytesOut ≠ 0 then
      some ({ s with
          toHostCountedQ := rest
          remChunksOut := (s.remChunksOut + 2 ^ P.lengthBits - 1) % 2 ^ P.lengthBits
          inactiveOutCnt := s.maxTimeout
          remBytesOut := if P.beatBytes < s.remBytesOut then s.remBytesOut - P.beatBytes else 0 },
        { beat := chunk, producer := .chunk })
    else none

/-- `rule triggerTimeout`. -/
def triggerTimeout (s : Driver P) : Option (Driver P × Option (Out P)) :=
  if s.inactiveOutCnt ≠ 0 ∧ s.remBytesOut = 0 ∧ s.inDebugPacket = false ∧
      s.canStartPacketToHost.isNone = true then
    some ({ s with inactiveOutCnt := s.inactiveOutCnt - 1 },
      if s.inactiveOutCnt = 1 then some { beat := headerBeat 0 1 0 4 0, producer := .timeout }
      else none)
  else none

/-- `out_beat` of `rule debug`, before its branches. -/
def debugBeat (beat : Beat P) : Beat P :=
  let out := setField beat 0 (sourceOf beat)
  let out := setField out 8 (destinationOf beat)
  let out := setField out 16 (4 : BitVec 8)
  setField out 24 (1 : BitVec 8)

/-- `rule debug`. -/
def debug (s : Driver P) : Option (Driver P × Out P) :=
  match s.beatsIn with
  | [] => none
  | beat :: rest =>
    if s.initDone = true ∧ s.remBytesOut = 0 ∧ s.remBytesIn = 0 ∧ s.inDebugPacket = false ∧
        destinationOf beat = debugPort then
      let out := debugBeat beat
      if isContinuation beat = false then
        let out := setField out 32 (BitVec.ofBool (decide (s.fromHostSyncQ.length < 8)))
        let out := setField out 33 (0 : BitVec 7)
        let out := setField out 40 (BitVec.ofNat 8 s.toHostCountedQ.length)
        let out := setField out 48 (BitVec.ofNat 16 s.remChunksOut)
        some ({ s with beatsIn := rest }, { beat := out, producer := .debug })
      else if P.historyIndexBits ≠ 0 then
        -- the request stays in the queue until the last entry
        let idx := s.historyDumpIdx
        let out := setField out 32 (idx.setWidth 32)
        let out := setField out 16 (BitVec.ofNat 8 (2 * P.beatBytes - 4))
        let done := idx == BitVec.allOnes _
        some ({ s with
            beatsIn := if done then rest else s.beatsIn
            historyRsp := s.historyRsp ++ [s.historyFromHost (s.historyFromHostNext + idx)]
            inDebugPacket := true
            historyDumpIdx := idx + 1 },
          { beat := if done then setField out 31 (1 : BitVec 1) else out, producer := .debug })
      else some ({ s with beatsIn := rest }, { beat := out, producer := .debug })
    else none

/-- `rule fwdHistoryFromHost`. -/
def fwdHistoryFromHost (s : Driver P) : Option (Driver P × Out P) :=
  match s.historyRsp with
  | [] => none
  | hist :: rest =>
    if s.remBytesOut = 0 then
      some ({ s with historyRsp := rest, inDebugPacket := false },
        { beat := hist, producer := .history })
    else none

end Driver

variable (P) in
/-- The rules of the module, the methods of the model, and the port. -/
inductive Rule
  | arrive (beat : Beat P)
  | write (chunk : Beat P)
  | read
  | connect
  | initFromHost
  | processHeaderFromHost
  | fwdChunkFromHost
  | startBlueNoCPacketToHost
  | fwdChunkToHost
  | triggerTimeout
  | debug
  | fwdHistoryFromHost

/-- A step of the driver: the new state, and the beat put into `beatsOut` if one is. -/
def rule : Rule P → Driver P → Option (Driver P × Option (Out P))
  | .arrive beat, s => some (s.arrive beat, none)
  | .write chunk, s => (s.write chunk).map (·, none)
  | .read, s => s.read.map (·, none)
  | .connect, s => s.connect.map (·, none)
  | .initFromHost, s => s.initFromHost.map (·, none)
  | .processHeaderFromHost, s => s.processHeaderFromHost.map (·, none)
  | .fwdChunkFromHost, s => s.fwdChunkFromHost.map (·, none)
  | .startBlueNoCPacketToHost, s => s.startBlueNoCPacketToHost.map fun (s', b) => (s', some b)
  | .fwdChunkToHost, s => s.fwdChunkToHost.map fun (s', b) => (s', some b)
  | .triggerTimeout, s => s.triggerTimeout
  | .debug, s => s.debug.map fun (s', b) => (s', some b)
  | .fwdHistoryFromHost, s => s.fwdHistoryFromHost.map fun (s', b) => (s', some b)

/-- A rule that sends nothing. -/
theorem silent_eq_some {x : Option (Driver P)} {e : Driver P} {o : Option (Out P)} :
    x.map (·, none) = some (e, o) ↔ x = some e ∧ o = none := by
  rw [Option.map_eq_some_iff]
  constructor
  · rintro ⟨_, hx, heq⟩
    obtain ⟨rfl, rfl⟩ := Prod.mk.inj heq
    exact ⟨hx, rfl⟩
  · rintro ⟨hx, rfl⟩
    exact ⟨e, hx, rfl⟩

/-- A rule that sends a beat. -/
theorem sends_eq_some {x : Option (Driver P × Out P)} {e : Driver P} {o : Option (Out P)} :
    x.map (Prod.map id some) = some (e, o) ↔ ∃ b, x = some (e, b) ∧ o = some b := by
  rw [Option.map_eq_some_iff]
  constructor
  · rintro ⟨⟨_, b⟩, hx, heq⟩
    obtain ⟨rfl, rfl⟩ := Prod.mk.inj heq
    exact ⟨b, hx, rfl⟩
  · rintro ⟨b, hx, rfl⟩
    exact ⟨(e, b), hx, rfl⟩

end BlueNoC

end PciExpress

end LeapPlatforms
