import LeapPlatforms.Foundation.TransitionSystem
import Mathlib.Data.BitVec
import Mathlib.Data.Nat.Log
import Mathlib.Algebra.Order.Ring.Nat

/-!
# The bank controller `mkDDRBankCtrl`

The glue between the clock of the model, where the user is, and the clock of the memory controller.
Requests, write data and read data cross in one queue each. A write waits until all its beats are in
registers of the controller's clock and is then sent, with a command, beat by beat. A read is sent
at once, and what it returns must find room in `syncReadDataQ`.

The memory controller is the environment: it takes commands and beats when it pleases, and returns
the data of the reads it has, in order, when it pleases. `init_done` stays asserted once set. A rule
waits on a full or an empty queue as its methods do, each branch on its own.

## Main definitions

* `Params`, `Request`, `Bank` — a bank and what it is built with
* `Bank.reset`, the rules as functions on banks, `rule`
* `Step` — what a rule does, with what it found
* `bank` — the runs

## Main results

* `rule_step` — every step is a `Step`
* `reachable_started` — a bank becomes ready
-/

namespace LeapPlatforms

namespace Dram

/-- What a bank is built with. -/
structure Params where
  /-- `FPGA_DDR_BYTES_PER_BEAT`. -/
  bytesPerBeat : ℕ
  /-- `FPGA_DDR_WORDS_PER_BEAT`. -/
  wordsPerBeat : ℕ
  /-- `FPGA_DDR_ADDRESS_SZ`. -/
  addressBits : ℕ
  /-- `FPGA_DDR_BURST_LENGTH`. -/
  burstLength : ℕ
  /-- A burst has a beat. -/
  burstLength_pos : 0 < burstLength
  /-- `DRAM_MAX_OUTSTANDING_READS`. -/
  maxOutstandingReads : ℕ
  /-- There is room for a read. -/
  maxOutstandingReads_pos : 0 < maxOutstandingReads
  /-- `USE_INITIALIZATION_PATCH`. -/
  initPatch : Bool

variable (P : Params)

/-- `FPGA_DDR_DUALEDGE_BEAT`. -/
abbrev Beat : Type := BitVec (8 * P.bytesPerBeat)

/-- `FPGA_DDR_DUALEDGE_BEAT_MASK`. -/
abbrev Mask : Type := BitVec P.bytesPerBeat

/-- `FPGA_DDR_ADDRESS`. -/
abbrev Address : Type := BitVec P.addressBits

/-- `FPGA_DDR_REQUEST`. -/
inductive Request
  | read (address : Address P)
  | write (address : Address P)

/-- `FPGA_DDR_STATE`. -/
inductive State
  | init
  | ready
  deriving DecidableEq

/-! ### Counters -/

/-- The bits of a counter of the beats of a burst. -/
def burstBits : ℕ := Nat.clog 2 (P.burstLength + 1)

/-- The bits of `nInflightReads`. -/
def inflightBits : ℕ := Nat.clog 2 (P.maxOutstandingReads + 1)

/-- One more, in `w` bits. -/
def up (w n : ℕ) : ℕ := (n + 1) % 2 ^ w

/-- One less, in `w` bits. -/
def down (w n : ℕ) : ℕ := (n + (2 ^ w - 1)) % 2 ^ w

theorem up_eq {w n : ℕ} (h : n + 1 < 2 ^ w) : up w n = n + 1 := Nat.mod_eq_of_lt h

theorem down_eq {w n : ℕ} (h : n < 2 ^ w) (hpos : 0 < n) : down w n = n - 1 := by
  rw [down, show n + (2 ^ w - 1) = n - 1 + 2 ^ w by omega, Nat.add_mod_right,
    Nat.mod_eq_of_lt (by omega)]

theorem burstLength_lt : P.burstLength < 2 ^ burstBits P := Nat.le_pow_clog (by decide) _

theorem maxOutstandingReads_lt : P.maxOutstandingReads < 2 ^ inflightBits P :=
  Nat.le_pow_clog (by decide) _

/-! ### A bank -/

/-- The capacity of `syncReadDataQ`. -/
def readCapacity : ℕ := P.maxOutstandingReads * P.burstLength

/-- A bank, with the part of the memory controller that matters. -/
structure Bank where
  /-- `state`. -/
  state : State
  /-- `init_done` of the memory controller. -/
  initDone : Bool
  /-- `readyDelay`. -/
  readyDelay : BitVec 10
  /-- `dramReady`. -/
  dramReady : Bool
  /-- `dramReady_Model`. -/
  dramReadyModel : Bool
  /-- `syncRequestQ`. -/
  syncRequestQ : List (Request P)
  /-- `syncWriteDataQ`. -/
  syncWriteDataQ : List (Beat P × Mask P)
  /-- `syncReadDataQ`. -/
  syncReadDataQ : List (Beat P)
  /-- `nInflightReads`. -/
  nInflightReads : ℕ
  /-- `readBurstCnt`. -/
  readBurstCnt : ℕ
  /-- `calibrateMaxReads`. -/
  calibrateMaxReads : ℕ
  /-- `writeValue` and `writeValueMask`. -/
  writeValue : ℕ → Beat P × Mask P
  /-- `writeBurstIdx`. -/
  writeBurstIdx : ℕ
  /-- `writeEmitIdx`. -/
  writeEmitIdx : ℕ
  /-- `initPhase`. -/
  initPhase : BitVec 1
  /-- `initBurstIdx`. -/
  initBurstIdx : ℕ
  /-- `initAddr`. -/
  initAddr : Address P
  /-- `commandQ`. -/
  commandQ : List (Request P)
  /-- The beats that the memory controller has not returned yet. -/
  owed : ℕ
  /-- History: what the initialisation asked for. -/
  initRequests : List (Request P)
  /-- History: what the initialisation gave to be written. -/
  initData : List (Beat P × Mask P)
  /-- History: what the user asked for. -/
  userRequests : List (Request P)
  /-- History: what the user gave to be written. -/
  userData : List (Beat P × Mask P)
  /-- History: what was taken from `syncWriteDataQ`. -/
  copied : List (Beat P × Mask P)
  /-- History: `enqueue_address` of the memory controller. -/
  commands : List (Request P)
  /-- History: `enqueue_data`, with the mark of the end of a burst. -/
  beats : List ((Beat P × Mask P) × Bool)
  /-- History: what the memory controller returned. -/
  returned : List (Beat P)
  /-- History: what was taken from `syncReadDataQ`. -/
  delivered : List (Beat P)
  /-- History: what came when there was no room. -/
  lost : List (Beat P)

variable {P}

namespace Bank

/-- A bank after reset. The registers of a write hold anything. -/
def reset (w : ℕ → Beat P × Mask P) : Bank P where
  state := .init
  initDone := false
  readyDelay := 0
  dramReady := false
  dramReadyModel := false
  syncRequestQ := []
  syncWriteDataQ := []
  syncReadDataQ := []
  nInflightReads := 0
  readBurstCnt := P.burstLength - 1
  calibrateMaxReads := P.maxOutstandingReads
  writeValue := w
  writeBurstIdx := 0
  writeEmitIdx := 0
  initPhase := 0
  initBurstIdx := 0
  initAddr := 0
  commandQ := []
  owed := 0
  initRequests := []
  initData := []
  userRequests := []
  userData := []
  copied := []
  commands := []
  beats := []
  returned := []
  delivered := []
  lost := []

variable (s : Bank P)

/-- `syncRequestQ.notFull`. -/
def RequestRoom : Prop := s.syncRequestQ.length < 16

instance : Decidable s.RequestRoom := inferInstanceAs (Decidable (_ < _))

/-- `syncWriteDataQ.notFull`. -/
def WriteRoom : Prop := s.syncWriteDataQ.length < 16

instance : Decidable s.WriteRoom := inferInstanceAs (Decidable (_ < _))

/-! ### Becoming ready -/

/-- The memory controller asserts `init_done`. -/
def initDoneSet : Bank P := { s with initDone := true }

/-- `rule dramReadyInit`. -/
def dramReadyInit : Bank P :=
  if s.initDone then
    { s with
      readyDelay := s.readyDelay + 1
      dramReady := s.dramReady || s.readyDelay.toNat + 1 == 2 ^ 10 }
  else { s with dramReady := false, readyDelay := 0 }

/-- `rule dramReadyToModel`. -/
def dramReadyToModel : Bank P := { s with dramReadyModel := s.dramReady }

/-! ### Initialisation -/

/-- The initialisation asks for something. -/
def initRequest (r : Request P) : Bank P :=
  { s with syncRequestQ := s.syncRequestQ ++ [r], initRequests := s.initRequests ++ [r] }

/-- The initialisation gives something to be written. -/
def initWrite (d : Beat P × Mask P) : Bank P :=
  { s with syncWriteDataQ := s.syncWriteDataQ ++ [d], initData := s.initData ++ [d] }

/-- `rule initPhase0`, without the patch. -/
def initPhase0Plain : Option (Bank P) :=
  if s.state = .init ∧ s.dramReadyModel then some { s with state := .ready, initPhase := 1 }
  else none

/-- What `rule initPhase0` does with a beat of the read: it copies it to a write, which it requests
once. -/
def initCopy (data : Beat P) (rest : List (Beat P)) : Bank P :=
  let s' := { s with syncReadDataQ := rest, delivered := s.delivered ++ [data] }
  let s' := s'.initWrite (data, 0)
  let s' := if s.initBurstIdx = 1 then s'.initRequest (.write 0) else s'
  if s.initBurstIdx = P.burstLength then { s' with initBurstIdx := 0, initPhase := 1 }
  else { s' with initBurstIdx := up (burstBits P) s.initBurstIdx }

/-- `rule initPhase0`, with the patch. -/
def initPhase0Patch : Option (Bank P) :=
  if s.state = .init ∧ s.initPhase = 0 ∧ s.dramReadyModel then
    if s.initBurstIdx = 0 then
      -- first: read from address 0
      if s.RequestRoom then
        some { s.initRequest (.read 0) with initBurstIdx := up (burstBits P) s.initBurstIdx }
      else none
    else
      match s.syncReadDataQ with
      | [] => none
      | data :: rest =>
        if s.WriteRoom ∧ (s.initBurstIdx = 1 → s.RequestRoom) then some (s.initCopy data rest)
        else none
  else none

/-- `rule initPhase0`. -/
def initPhase0 : Option (Bank P) := if P.initPatch then s.initPhase0Patch else s.initPhase0Plain

/-- The pattern that memory is initialised with. -/
def initPattern : Beat P := BitVec.replicate P.bytesPerBeat (0xaa#8)

/-- What `rule initPhase1` does: one more beat of the pattern, and a request with the first of a
burst. -/
def initFill : Bank P :=
  let s' := if s.initBurstIdx = 0 then s.initRequest (.write s.initAddr) else s
  let s' := s'.initWrite (initPattern, 0)
  if s.initBurstIdx = P.burstLength - 1 then
    let nextAddr := s.initAddr + BitVec.ofNat _ (P.burstLength * P.wordsPerBeat)
    { s' with
      initBurstIdx := 0
      initAddr := nextAddr
      state := if nextAddr = 0 then .ready else s.state }
  else { s' with initBurstIdx := up (burstBits P) s.initBurstIdx }

/-- `rule initPhase1`, which only the patch has. -/
def initPhase1 : Option (Bank P) :=
  if P.initPatch ∧ s.state = .init ∧ s.initPhase = 1 ∧ s.WriteRoom ∧
      (s.initBurstIdx = 0 → s.RequestRoom) then
    some s.initFill
  else none

/-! ### The user -/

/-- `command`. -/
def command (cmd : Request P) : Option (Bank P) :=
  if s.commandQ.length < 1 then
    some { s with commandQ := s.commandQ ++ [cmd], userRequests := s.userRequests ++ [cmd] }
  else none

/-- `writeData`. -/
def writeData (data : Beat P × Mask P) : Option (Bank P) :=
  if s.state = .ready ∧ s.WriteRoom then
    some { s with syncWriteDataQ := s.syncWriteDataQ ++ [data], userData := s.userData ++ [data] }
  else none

/-- `readRsp`. -/
def readRsp : Option (Bank P) :=
  match s.syncReadDataQ with
  | [] => none
  | d :: rest =>
    if s.state = .ready then
      let s' := { s with syncReadDataQ := rest, delivered := s.delivered ++ [d] }
      some (if s.readBurstCnt = 0 then
          { s' with
            nInflightReads := down (inflightBits P) s.nInflightReads
            readBurstCnt := P.burstLength - 1 }
        else { s' with readBurstCnt := down (burstBits P) s.readBurstCnt })
    else none

/-- `setMaxReads`. -/
def setMaxReads (maxReads : ℕ) : Bank P := { s with calibrateMaxReads := maxReads }

/-- `rule doReadReq`. -/
def doReadReq : Option (Bank P) :=
  match s.commandQ with
  | .read addr :: rest =>
    if s.state = .ready ∧ s.nInflightReads < s.calibrateMaxReads ∧
        s.nInflightReads < P.maxOutstandingReads ∧ s.RequestRoom then
      some { s with
        commandQ := rest
        syncRequestQ := s.syncRequestQ ++ [.read addr]
        nInflightReads := up (inflightBits P) s.nInflightReads }
    else none
  | _ => none

/-- `rule doWriteReq`. -/
def doWriteReq : Option (Bank P) :=
  match s.commandQ with
  | .write addr :: rest =>
    if s.state = .ready ∧ s.RequestRoom then
      some { s with commandQ := rest, syncRequestQ := s.syncRequestQ ++ [.write addr] }
    else none
  | _ => none

/-! ### The memory controller -/

/-- `rule processReadRequest`. -/
def processReadRequest : Option (Bank P) :=
  match s.syncRequestQ with
  | .read address :: rest =>
    if s.dramReady then
      some { s with
        syncRequestQ := rest
        commands := s.commands ++ [.read address]
        owed := s.owed + P.burstLength }
    else none
  | _ => none

/-- `rule processWriteRequest`, for bursts of one beat. -/
def processWriteRequest : Option (Bank P) :=
  match s.syncRequestQ, s.syncWriteDataQ with
  | .write address :: rest, d :: ds =>
    if P.burstLength = 1 ∧ s.dramReady then
      some { s with
        syncRequestQ := rest
        syncWriteDataQ := ds
        copied := s.copied ++ [d]
        commands := s.commands ++ [.write address]
        beats := s.beats ++ [(d, true)] }
    else none
  | _, _ => none

/-- `rule copyWriteData`. -/
def copyWriteData : Option (Bank P) :=
  match s.syncWriteDataQ with
  | [] => none
  | d :: ds =>
    if P.burstLength ≠ 1 ∧ s.writeBurstIdx ≠ P.burstLength then
      some { s with
        syncWriteDataQ := ds
        copied := s.copied ++ [d]
        writeValue := Function.update s.writeValue s.writeBurstIdx d
        writeBurstIdx := up (burstBits P) s.writeBurstIdx }
    else none

/-- `rule processWriteRequest0`. -/
def processWriteRequest0 : Option (Bank P) :=
  match s.syncRequestQ with
  | .write address :: rest =>
    if P.burstLength ≠ 1 ∧ s.dramReady ∧ s.writeBurstIdx = P.burstLength ∧
        s.writeEmitIdx = 0 then
      some { s with
        syncRequestQ := rest
        commands := s.commands ++ [.write address]
        beats := s.beats ++ [(s.writeValue 0, P.burstLength == 1)]
        writeEmitIdx := 1
        writeBurstIdx := 0 }
    else none
  | _ => none

/-- `rule processWriteRequest1`. -/
def processWriteRequest1 : Option (Bank P) :=
  if P.burstLength ≠ 1 ∧ s.writeEmitIdx ≠ 0 then
    some { s with
      beats := s.beats ++ [(s.writeValue s.writeEmitIdx, true)]
      writeEmitIdx := if s.writeEmitIdx = P.burstLength - 1 then 0
        else up (burstBits P) s.writeEmitIdx }
  else none

/-- The memory controller returns a beat, and `rule readDataToBuffer` takes it, if it can. -/
def readDataToBuffer (data : Beat P) : Option (Bank P) :=
  if 0 < s.owed then
    let s' := { s with owed := s.owed - 1, returned := s.returned ++ [data] }
    some (if s.dramReady ∧ s.syncReadDataQ.length < readCapacity P then
        { s' with syncReadDataQ := s.syncReadDataQ ++ [data] }
      else { s' with lost := s.lost ++ [data] })
  else none

end Bank

/-- The rules and methods of the module, and what the memory controller does. -/
inductive Rule (P : Params)
  | initDoneSet
  | dramReadyInit
  | dramReadyToModel
  | initPhase0
  | initPhase1
  | command (cmd : Request P)
  | writeData (data : Beat P × Mask P)
  | readRsp
  | setMaxReads (maxReads : ℕ)
  | doReadReq
  | doWriteReq
  | processReadRequest
  | processWriteRequest
  | copyWriteData
  | processWriteRequest0
  | processWriteRequest1
  | readDataToBuffer (data : Beat P)

/-- A step of a bank. -/
def rule : Rule P → Bank P → Option (Bank P)
  | .initDoneSet, s => some s.initDoneSet
  | .dramReadyInit, s => some s.dramReadyInit
  | .dramReadyToModel, s => some s.dramReadyToModel
  | .initPhase0, s => s.initPhase0
  | .initPhase1, s => s.initPhase1
  | .command cmd, s => s.command cmd
  | .writeData data, s => s.writeData data
  | .readRsp, s => s.readRsp
  | .setMaxReads maxReads, s => some (s.setMaxReads maxReads)
  | .doReadReq, s => s.doReadReq
  | .doWriteReq, s => s.doWriteReq
  | .processReadRequest, s => s.processReadRequest
  | .processWriteRequest, s => s.processWriteRequest
  | .copyWriteData, s => s.copyWriteData
  | .processWriteRequest0, s => s.processWriteRequest0
  | .processWriteRequest1, s => s.processWriteRequest1
  | .readDataToBuffer data, s => s.readDataToBuffer data

/-! ### What a step does -/

/-- What a rule does, with what it found. -/
inductive Step : Rule P → Bank P → Bank P → Prop
  | initDoneSet (s : Bank P) : Step .initDoneSet s s.initDoneSet
  | dramReadyInit (s : Bank P) : Step .dramReadyInit s s.dramReadyInit
  | dramReadyToModel (s : Bank P) : Step .dramReadyToModel s s.dramReadyToModel
  | initPlain {s : Bank P} (hpatch : P.initPatch = false) (hstate : s.state = .init) :
    Step .initPhase0 s { s with state := .ready, initPhase := 1 }
  | initRead {s : Bank P} (hpatch : P.initPatch = true) (hstate : s.state = .init)
      (hphase : s.initPhase = 0) (hidx : s.initBurstIdx = 0) :
    Step .initPhase0 s
      { s.initRequest (.read 0) with initBurstIdx := up (burstBits P) s.initBurstIdx }
  | initCopy {s : Bank P} {data : Beat P} {rest : List (Beat P)} (hpatch : P.initPatch = true)
      (hstate : s.state = .init) (hphase : s.initPhase = 0) (hidx : s.initBurstIdx ≠ 0)
      (hq : s.syncReadDataQ = data :: rest) : Step .initPhase0 s (s.initCopy data rest)
  | initFill {s : Bank P} (hpatch : P.initPatch = true) (hstate : s.state = .init)
      (hphase : s.initPhase = 1) : Step .initPhase1 s s.initFill
  | command {s : Bank P} (cmd : Request P) : Step (.command cmd) s
      { s with commandQ := s.commandQ ++ [cmd], userRequests := s.userRequests ++ [cmd] }
  | writeData {s : Bank P} (d : Beat P × Mask P) (hstate : s.state = .ready) :
    Step (.writeData d) s
      { s with syncWriteDataQ := s.syncWriteDataQ ++ [d], userData := s.userData ++ [d] }
  | readRspLast {s : Bank P} {d : Beat P} {rest : List (Beat P)} (hstate : s.state = .ready)
      (hq : s.syncReadDataQ = d :: rest) (hcnt : s.readBurstCnt = 0) :
    Step .readRsp s { s with
      syncReadDataQ := rest
      delivered := s.delivered ++ [d]
      nInflightReads := down (inflightBits P) s.nInflightReads
      readBurstCnt := P.burstLength - 1 }
  | readRsp {s : Bank P} {d : Beat P} {rest : List (Beat P)} (hstate : s.state = .ready)
      (hq : s.syncReadDataQ = d :: rest) (hcnt : s.readBurstCnt ≠ 0) :
    Step .readRsp s { s with
      syncReadDataQ := rest
      delivered := s.delivered ++ [d]
      readBurstCnt := down (burstBits P) s.readBurstCnt }
  | setMaxReads {s : Bank P} (maxReads : ℕ) : Step (.setMaxReads maxReads) s (s.setMaxReads maxReads)
  | doReadReq {s : Bank P} {addr : Address P} {rest : List (Request P)}
      (hq : s.commandQ = .read addr :: rest) (hstate : s.state = .ready)
      (hlt : s.nInflightReads < P.maxOutstandingReads) :
    Step .doReadReq s { s with
      commandQ := rest
      syncRequestQ := s.syncRequestQ ++ [.read addr]
      nInflightReads := up (inflightBits P) s.nInflightReads }
  | doWriteReq {s : Bank P} {addr : Address P} {rest : List (Request P)}
      (hq : s.commandQ = .write addr :: rest) (hstate : s.state = .ready) :
    Step .doWriteReq s
      { s with commandQ := rest, syncRequestQ := s.syncRequestQ ++ [.write addr] }
  | processReadRequest {s : Bank P} {addr : Address P} {rest : List (Request P)}
      (hq : s.syncRequestQ = .read addr :: rest) (hready : s.dramReady = true) :
    Step .processReadRequest s { s with
      syncRequestQ := rest
      commands := s.commands ++ [.read addr]
      owed := s.owed + P.burstLength }
  | processWriteRequest {s : Bank P} {addr : Address P} {rest : List (Request P)}
      {d : Beat P × Mask P} {ds : List (Beat P × Mask P)}
      (hq : s.syncRequestQ = .write addr :: rest) (hd : s.syncWriteDataQ = d :: ds)
      (hburst : P.burstLength = 1) :
    Step .processWriteRequest s { s with
      syncRequestQ := rest
      syncWriteDataQ := ds
      copied := s.copied ++ [d]
      commands := s.commands ++ [.write addr]
      beats := s.beats ++ [(d, true)] }
  | copyWriteData {s : Bank P} {d : Beat P × Mask P} {ds : List (Beat P × Mask P)}
      (hd : s.syncWriteDataQ = d :: ds) (hburst : P.burstLength ≠ 1)
      (hidx : s.writeBurstIdx ≠ P.burstLength) :
    Step .copyWriteData s { s with
      syncWriteDataQ := ds
      copied := s.copied ++ [d]
      writeValue := Function.update s.writeValue s.writeBurstIdx d
      writeBurstIdx := up (burstBits P) s.writeBurstIdx }
  | processWriteRequest0 {s : Bank P} {addr : Address P} {rest : List (Request P)}
      (hq : s.syncRequestQ = .write addr :: rest) (hburst : P.burstLength ≠ 1)
      (hidx : s.writeBurstIdx = P.burstLength) (hemit : s.writeEmitIdx = 0) :
    Step .processWriteRequest0 s { s with
      syncRequestQ := rest
      commands := s.commands ++ [.write addr]
      beats := s.beats ++ [(s.writeValue 0, P.burstLength == 1)]
      writeEmitIdx := 1
      writeBurstIdx := 0 }
  | processWriteRequest1 {s : Bank P} (hburst : P.burstLength ≠ 1) (hemit : s.writeEmitIdx ≠ 0) :
    Step .processWriteRequest1 s { s with
      beats := s.beats ++ [(s.writeValue s.writeEmitIdx, true)]
      writeEmitIdx := if s.writeEmitIdx = P.burstLength - 1 then 0
        else up (burstBits P) s.writeEmitIdx }
  | readDataToBuffer {s : Bank P} (data : Beat P) (howed : 0 < s.owed)
      (hready : s.dramReady = true) (hroom : s.syncReadDataQ.length < readCapacity P) :
    Step (.readDataToBuffer data) s { s with
      owed := s.owed - 1
      returned := s.returned ++ [data]
      syncReadDataQ := s.syncReadDataQ ++ [data] }
  | loseData {s : Bank P} (data : Beat P) (howed : 0 < s.owed)
      (hfull : ¬(s.dramReady ∧ s.syncReadDataQ.length < readCapacity P)) :
    Step (.readDataToBuffer data) s { s with
      owed := s.owed - 1
      returned := s.returned ++ [data]
      lost := s.lost ++ [data] }

variable {s t : Bank P}

theorem initPhase0_step (h : s.initPhase0 = some t) : Step .initPhase0 s t := by
  rw [Bank.initPhase0] at h
  split at h
  · next hpatch =>
    rw [Bank.initPhase0Patch] at h
    split at h
    · next hguard =>
      obtain ⟨hstate, hphase, _⟩ := hguard
      split at h
      · next hidx =>
        split at h
        · obtain rfl := Option.some.inj h
          exact .initRead hpatch hstate hphase hidx
        · cases h
      · next hidx =>
        split at h
        · cases h
        · next data rest hq =>
          split at h
          · obtain rfl := Option.some.inj h
            exact .initCopy hpatch hstate hphase hidx hq
          · cases h
    · cases h
  · next hpatch =>
    rw [Bank.initPhase0Plain] at h
    split at h
    · next hguard =>
      obtain rfl := Option.some.inj h
      exact .initPlain (by simpa using hpatch) hguard.1
    · cases h

theorem initPhase1_step (h : s.initPhase1 = some t) : Step .initPhase1 s t := by
  rw [Bank.initPhase1] at h
  split at h
  · next hguard =>
    obtain ⟨hpatch, hstate, hphase, _⟩ := hguard
    obtain rfl := Option.some.inj h
    exact .initFill hpatch hstate hphase
  · cases h

theorem readRsp_step (h : s.readRsp = some t) : Step .readRsp s t := by
  rw [Bank.readRsp] at h
  split at h
  · cases h
  · next d rest hq =>
    split at h
    · next hstate =>
      obtain rfl := Option.some.inj h
      by_cases hcnt : s.readBurstCnt = 0
      · rw [if_pos hcnt]
        exact .readRspLast hstate hq hcnt
      · rw [if_neg hcnt]
        exact .readRsp hstate hq hcnt
    · cases h

theorem doReadReq_step (h : s.doReadReq = some t) : Step .doReadReq s t := by
  rw [Bank.doReadReq] at h
  split at h
  · next addr rest hq =>
    split at h
    · next hguard =>
      obtain ⟨hstate, _, hlt, _⟩ := hguard
      obtain rfl := Option.some.inj h
      exact .doReadReq hq hstate hlt
    · cases h
  · cases h

theorem doWriteReq_step (h : s.doWriteReq = some t) : Step .doWriteReq s t := by
  rw [Bank.doWriteReq] at h
  split at h
  · next addr rest hq =>
    split at h
    · next hguard =>
      obtain rfl := Option.some.inj h
      exact .doWriteReq hq hguard.1
    · cases h
  · cases h

theorem processReadRequest_step (h : s.processReadRequest = some t) :
    Step .processReadRequest s t := by
  rw [Bank.processReadRequest] at h
  split at h
  · next addr rest hq =>
    split at h
    · next hready =>
      obtain rfl := Option.some.inj h
      exact .processReadRequest hq hready
    · cases h
  · cases h

theorem processWriteRequest_step (h : s.processWriteRequest = some t) :
    Step .processWriteRequest s t := by
  rw [Bank.processWriteRequest] at h
  split at h
  · next addr rest d ds hq hd =>
    split at h
    · next hguard =>
      obtain rfl := Option.some.inj h
      exact .processWriteRequest hq hd hguard.1
    · cases h
  · cases h

theorem copyWriteData_step (h : s.copyWriteData = some t) : Step .copyWriteData s t := by
  rw [Bank.copyWriteData] at h
  split at h
  · cases h
  · next d ds hd =>
    split at h
    · next hguard =>
      obtain rfl := Option.some.inj h
      exact .copyWriteData hd hguard.1 hguard.2
    · cases h

theorem processWriteRequest0_step (h : s.processWriteRequest0 = some t) :
    Step .processWriteRequest0 s t := by
  rw [Bank.processWriteRequest0] at h
  split at h
  · next addr rest hq =>
    split at h
    · next hguard =>
      obtain ⟨hburst, _, hidx, hemit⟩ := hguard
      obtain rfl := Option.some.inj h
      exact .processWriteRequest0 hq hburst hidx hemit
    · cases h
  · cases h

theorem readDataToBuffer_step {data : Beat P} (h : s.readDataToBuffer data = some t) :
    Step (.readDataToBuffer data) s t := by
  rw [Bank.readDataToBuffer] at h
  split at h
  · next howed =>
    obtain rfl := Option.some.inj h
    by_cases hroom : s.dramReady ∧ s.syncReadDataQ.length < readCapacity P
    · rw [if_pos hroom]
      exact .readDataToBuffer data howed hroom.1 hroom.2
    · rw [if_neg hroom]
      exact .loseData data howed hroom
  · cases h

/-- Every step is one of these. -/
theorem rule_step {r : Rule P} (h : rule r s = some t) : Step r s t := by
  cases r with
  | initDoneSet =>
    obtain rfl := Option.some.inj h
    exact .initDoneSet s
  | dramReadyInit =>
    obtain rfl := Option.some.inj h
    exact .dramReadyInit s
  | dramReadyToModel =>
    obtain rfl := Option.some.inj h
    exact .dramReadyToModel s
  | initPhase0 => exact initPhase0_step h
  | initPhase1 => exact initPhase1_step h
  | command cmd =>
    obtain ⟨_, heq⟩ := Option.ite_none_right_eq_some.mp h
    obtain rfl := Option.some.inj heq
    exact .command cmd
  | writeData d =>
    obtain ⟨hguard, heq⟩ := Option.ite_none_right_eq_some.mp h
    obtain rfl := Option.some.inj heq
    exact .writeData d hguard.1
  | readRsp => exact readRsp_step h
  | setMaxReads maxReads =>
    obtain rfl := Option.some.inj h
    exact .setMaxReads maxReads
  | doReadReq => exact doReadReq_step h
  | doWriteReq => exact doWriteReq_step h
  | processReadRequest => exact processReadRequest_step h
  | processWriteRequest => exact processWriteRequest_step h
  | copyWriteData => exact copyWriteData_step h
  | processWriteRequest0 => exact processWriteRequest0_step h
  | processWriteRequest1 =>
    obtain ⟨hguard, heq⟩ := Option.ite_none_right_eq_some.mp h
    obtain rfl := Option.some.inj heq
    exact .processWriteRequest1 hguard.1 hguard.2
  | readDataToBuffer data => exact readDataToBuffer_step h

variable (P) in
/-- The runs of a bank. -/
def bank : TransitionSystem (Bank P) where
  init s := ∃ w, s = .reset w
  step s t := ∃ r, rule r s = some t

/-! ### A bank that is ready -/

section Starting

/-- The rules that a bank starts with. -/
def Starting : Rule P → Prop
  | .initDoneSet | .dramReadyInit | .dramReadyToModel => True
  | _ => False

/-- A bank whose memory controller has just become ready. -/
def Bank.started (w : ℕ → Beat P × Mask P) : Bank P :=
  { Bank.reset w with initDone := true, dramReady := true, dramReadyModel := true }

variable {M : TransitionSystem (Bank P)} {w : ℕ → Beat P × Mask P} (hinit : M.init (.reset w))
  (hstep : ∀ r s t, Starting r → rule r s = some t → M.step s t)

include hinit hstep

theorem reachable_waiting {n : ℕ} (hn : n < 2 ^ 10) :
    M.Reachable { Bank.reset w with initDone := true, readyDelay := BitVec.ofNat 10 n } := by
  induction n with
  | zero => exact .step (.init hinit) (hstep .initDoneSet _ _ trivial rfl)
  | succ n ih =>
    refine .step (ih (by omega)) (hstep .dramReadyInit _ _ trivial ?_)
    have hmod : n % 2 ^ 10 = n := Nat.mod_eq_of_lt (by omega)
    have hne : ((BitVec.ofNat 10 n).toNat + 1 == 2 ^ 10) = false := by
      rw [BitVec.toNat_ofNat, hmod]
      exact beq_eq_false_iff_ne.mpr (by omega)
    have hadd : BitVec.ofNat 10 n + 1 = BitVec.ofNat 10 (n + 1) := by
      apply BitVec.eq_of_toNat_eq
      simp
    show some { Bank.reset w with
      initDone := true
      readyDelay := BitVec.ofNat 10 n + 1
      dramReady := false || (BitVec.ofNat 10 n).toNat + 1 == 2 ^ 10 } = _
    rw [hne, hadd]
    rfl

/-- `init_done` has to be stable for 1K cycles, and then the bank starts. -/
theorem reachable_started : M.Reachable (.started w) := by
  have hwait := reachable_waiting hinit hstep (n := 2 ^ 10 - 1) (by decide)
  have hready : M.Reachable { Bank.reset w with initDone := true, dramReady := true } := by
    refine .step hwait (hstep .dramReadyInit _ _ trivial ?_)
    have hzero : BitVec.ofNat 10 (2 ^ 10 - 1) + 1 = 0 := by decide
    have hlast : ((BitVec.ofNat 10 (2 ^ 10 - 1)).toNat + 1 == 2 ^ 10) = true := by decide
    show some { Bank.reset w with
      initDone := true
      readyDelay := BitVec.ofNat 10 (2 ^ 10 - 1) + 1
      dramReady := false || (BitVec.ofNat 10 (2 ^ 10 - 1)).toNat + 1 == 2 ^ 10 } = _
    rw [hzero, hlast]
    rfl
  exact hready.step (hstep .dramReadyToModel _ _ trivial rfl)

end Starting

end Dram

end LeapPlatforms
