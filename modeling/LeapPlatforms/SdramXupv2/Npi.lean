import LeapPlatforms.Foundation.TransitionSystem
import Mathlib.Data.BitVec
import Mathlib.Data.Nat.Log
import Mathlib.Algebra.Order.Ring.Nat

/-!
# `mkNPIWrapper` with `mkNPIMaster`

The driver of the memory controller of the XUPv2 board. The wrapper cuts a burst request into
commands, aligned and of a power of two words each; the master hands the commands to the controller
and, for a write, pushes its words. What is read comes out of a FIFO that cannot be stalled after a
pop, so a token is taken for each pop, and given back when the word is.

Commands, write words and read words cross between the clock of the model and that of the controller
in queues. The controller is the environment: it acknowledges an address request when it pleases,
and its read FIFO is empty when it pleases.

## Main definitions

* `Params`, `NpiBurst`, `NpiCommand`, `BurstRequest`
* `NpiWrapper`, `NpiMaster`, `Npi` — the registers and queues, and histories
* the rules as functions, `Npi.rule`
* `npi` — the runs that meet a condition
* `Step` — what a rule does, with what it found

## Main results

* `rule_step` — every step is a `Step`
-/

namespace LeapPlatforms

namespace SdramXupv2

/-- The parameters of the device, and the latency that the controller has. -/
structure Params where
  /-- `DRAM_ADDRESS_SIZE`; the controller's addresses are those of bytes, in 32 bits. -/
  addressSize : ℕ
  addressSize_cases : 5 ≤ addressSize ∧ addressSize + 3 ≤ 32
  /-- `DRAM_MAX_BURST_SIZE`. -/
  maxBurstSize : ℕ
  maxBurstSize_ge : 32 ≤ maxBurstSize
  /-- `rdFIFO_Latency`. -/
  rdFifoLatency : ℕ
  rdFifoLatency_le : rdFifoLatency ≤ 2

/-- The default parameters, with a latency of one clock. -/
def sampleParams : Params where
  addressSize := 22
  addressSize_cases := by decide
  maxBurstSize := 32
  maxBurstSize_ge := le_rfl
  rdFifoLatency := 1
  rdFifoLatency_le := by decide

/-- `NPIBurst`. -/
inductive NpiBurst
  | burst1
  | burst2
  | burst4
  | burst8
  | burst16
  | burst32
  deriving DecidableEq

namespace NpiBurst

/-- The bits of a size. -/
def pack : NpiBurst → ℕ
  | burst1 => 0
  | burst2 => 1
  | burst4 => 2
  | burst8 => 3
  | burst16 => 4
  | burst32 => 5

def words (b : NpiBurst) : ℕ := 2 ^ b.pack

/-- `burst_count_max`; the queue of words holds more than this when a burst is ready. -/
def burstCountMax : NpiBurst → ℕ
  | burst1 => 0
  | burst2 => 1
  | burst4 => 3
  | burst8 => 7
  | burst16 => 15
  | burst32 => 31

theorem burstCountMax_eq (b : NpiBurst) : b.burstCountMax + 1 = b.words := by
  cases b <;> rfl

theorem words_pos (b : NpiBurst) : 0 < b.words := Nat.two_pow_pos _

theorem words_le (b : NpiBurst) : b.words ≤ 32 := by
  cases b <;> decide

end NpiBurst

/-- `NPICommand`. -/
inductive NpiCommand
  | readCommand (addr : ℕ) (size : NpiBurst)
  | writeCommand (addr : ℕ) (size : NpiBurst) (rmw : Bool)
  deriving DecidableEq

/-- `NPIWriteWord`. -/
structure NpiWriteWord where
  data : BitVec 64
  be : BitVec 8
  deriving DecidableEq

/-- `NPIReadWord`. -/
structure NpiReadWord where
  data : BitVec 64
  addr : BitVec 4
  deriving DecidableEq

/-- A range of words. -/
structure BurstCommand where
  addr : ℕ
  size : ℕ
  deriving DecidableEq

/-- `BURST_REQUEST`. -/
inductive BurstRequest
  | readReq (command : BurstCommand)
  | writeReq (command : BurstCommand)
  deriving DecidableEq

namespace BurstRequest

def command : BurstRequest → BurstCommand
  | readReq c => c
  | writeReq c => c

def isRead : BurstRequest → Bool
  | readReq _ => true
  | writeReq _ => false

end BurstRequest

/-! ### Registers and queues -/

/-- The registers of `mkNPIWrapper`. -/
structure NpiWrapper where
  handlingRead : Bool := true
  wordsRemaining : ℕ := 0
  outstandingReqs : ℕ := 0
  address : ℕ := 0
  deriving DecidableEq

inductive InboundProcessState
  | processCmd
  | processWrite
  | processWriteSpecial
  | processWriteSpecialData
  | sendWrite
  deriving DecidableEq

/-- The registers and queues of `mkNPIMaster`; the tokens say nothing but that they are there. -/
structure NpiMaster where
  /-- `initDone_val`. -/
  initDone : Bool := false
  state : InboundProcessState := .processCmd
  xferCount : ℕ
  assertPopDelay0 : Bool := false
  assertPopDelay1 : Bool := false
  writeQ : List NpiWriteWord := []
  readQ : List NpiReadWord := []
  readTokenQ : ℕ := 0
  commandQ : List NpiCommand := []
  deriving DecidableEq

/-- An address request as the controller sees it. -/
structure AddrReq where
  addr : ℕ
  rnw : Bool
  size : ℕ
  rdModWr : Bool
  deriving DecidableEq

/-- The address request for a command. -/
def NpiCommand.addrReq : NpiCommand → AddrReq
  | .readCommand addr size => ⟨addr, true, size.pack, false⟩
  | .writeCommand addr size rmw =>
    ⟨addr, false, size.pack, rmw || size == .burst1 || size == .burst2⟩

/-- The byte enables of a word; they are those of the user in a read-modify-write only. -/
def NpiCommand.byteEnables : NpiCommand → NpiWriteWord → BitVec 8
  | .writeCommand _ _ true, w => w.be
  | _, _ => 0xff

/-- What the controller sees in a clock. -/
inductive Signal
  | addrReq (r : AddrReq) (addrAck : Bool)
  | wrFifoPush (data : BitVec 64) (be : BitVec 8)
  deriving DecidableEq

/-- The wrapper and the master, with histories. -/
structure Npi where
  wrapper : NpiWrapper := {}
  master : NpiMaster
  /-- The requests of the user. -/
  requests : List BurstRequest := []
  /-- The words that the user gave to be written. -/
  given : List (BitVec 64) := []
  /-- The commands of the wrapper. -/
  commands : List NpiCommand := []
  signals : List Signal := []
  /-- How often the read FIFO was popped. -/
  popped : ℕ := 0
  /-- The words that came out of the read FIFO. -/
  arrived : List NpiReadWord := []
  /-- The words that the user got. -/
  returned : List NpiReadWord := []
  deriving DecidableEq

variable (P : Params)

/-- The bits of `wordsRemaining` and of `outstandingReqs`. -/
def countBits : ℕ := 1 + Nat.clog 2 P.maxBurstSize

theorem maxBurstSize_lt : P.maxBurstSize < 2 ^ countBits P := by
  have hle : P.maxBurstSize ≤ 2 ^ Nat.clog 2 P.maxBurstSize := Nat.le_pow_clog (by decide) _
  have hpos := P.maxBurstSize_ge
  rw [countBits, Nat.pow_add]
  omega

/-- The greatest burst that is aligned at `address` and not more than what remains. -/
def burstFor (wordsRemaining address : ℕ) : NpiBurst :=
  if 32 ≤ wordsRemaining ∧ address % 32 = 0 then .burst32
  else if 16 ≤ wordsRemaining ∧ address % 16 = 0 then .burst16
  else if 8 ≤ wordsRemaining ∧ address % 8 = 0 then .burst8
  else if 4 ≤ wordsRemaining ∧ address % 4 = 0 then .burst4
  else if 2 ≤ wordsRemaining ∧ address % 2 = 0 then .burst2
  else .burst1

namespace Npi

variable (s : Npi)

/-! ### The wrapper -/

/-- `burstReq`. -/
def burstReq (req : BurstRequest) : Option Npi :=
  if s.wrapper.wordsRemaining = 0 then
    some { s with
      wrapper := { s.wrapper with
        wordsRemaining := req.command.size
        address := req.command.addr
        handlingRead := req.isRead }
      requests := s.requests ++ [req] }
  else none

/-- `commandQ.notFull`. -/
def CommandRoom : Prop := s.master.commandQ.length < 4

instance : Decidable s.CommandRoom := inferInstanceAs (Decidable (_ < _))

/-- A command for the next burst. -/
def issue (c : NpiCommand) (b : NpiBurst) : Npi :=
  { s with
    wrapper := { s.wrapper with
      address := (s.wrapper.address + b.words) % 2 ^ P.addressSize
      wordsRemaining := s.wrapper.wordsRemaining - b.words }
    master := { s.master with commandQ := s.master.commandQ ++ [c] }
    commands := s.commands ++ [c] }

/-- `rule handleRead`. -/
def handleRead : Option Npi :=
  if s.wrapper.handlingRead = true ∧ 0 < s.wrapper.wordsRemaining ∧ s.wrapper.outstandingReqs = 0 ∧
      s.CommandRoom then
    let b := burstFor s.wrapper.wordsRemaining s.wrapper.address
    let t := s.issue P (.readCommand (8 * s.wrapper.address) b) b
    some { t with wrapper := { t.wrapper with outstandingReqs := b.words } }
  else none

/-- `rule handleWrite`. -/
def handleWrite : Option Npi :=
  if s.wrapper.handlingRead = false ∧ 0 < s.wrapper.wordsRemaining ∧ s.CommandRoom then
    let b := burstFor s.wrapper.wordsRemaining s.wrapper.address
    some (s.issue P (.writeCommand (8 * s.wrapper.address) b false) b)
  else none

/-- `readRsp`: a word and its token. -/
def readRsp : Option Npi :=
  match s.master.readQ with
  | [] => none
  | word :: rest =>
    if 0 < s.master.readTokenQ then
      some { s with
        wrapper := { s.wrapper with
          outstandingReqs :=
            (s.wrapper.outstandingReqs + (2 ^ countBits P - 1)) % 2 ^ countBits P }
        master := { s.master with readQ := rest, readTokenQ := s.master.readTokenQ - 1 }
        returned := s.returned ++ [word] }
    else none

/-- `writeData`, with all its bytes enabled. -/
def writeData (data : BitVec 64) : Option Npi :=
  if s.master.writeQ.length < 32 then
    some { s with
      master := { s.master with writeQ := s.master.writeQ ++ [⟨data, BitVec.allOnes 8⟩] }
      given := s.given ++ [data] }
  else none

/-! ### Reading -/

/-- The controller asserts `initDone`. -/
def initDoneSet : Npi := { s with master := { s.master with initDone := true } }

/-- `rule assert_pop` fires. -/
def assertPop (rdFifoEmpty : Bool) : Bool :=
  s.master.initDone && !rdFifoEmpty && decide (s.master.readTokenQ < 32)

/-- `pop_dvalid`. -/
def popDvalid (rdFifoEmpty : Bool) : Bool :=
  if P.rdFifoLatency = 0 then s.assertPop rdFifoEmpty
  else if P.rdFifoLatency = 1 then s.master.assertPopDelay0
  else s.master.assertPopDelay1

/-- A clock of the read FIFO: `rule assert_pop`, `rule make_delay_line` and
`rule process_read_fifo`. A word that finds no room is lost. -/
def readFifo (rdFifoEmpty : Bool) (word : NpiReadWord) : Npi :=
  let arrives := s.master.initDone && s.popDvalid P rdFifoEmpty
  { s with
    master := { s.master with
      readTokenQ := s.master.readTokenQ + if s.assertPop rdFifoEmpty then 1 else 0
      assertPopDelay0 := s.assertPop rdFifoEmpty
      assertPopDelay1 := s.master.assertPopDelay0
      readQ := s.master.readQ ++ if arrives && decide (s.master.readQ.length < 32) then [word] else [] }
    popped := s.popped + if s.assertPop rdFifoEmpty then 1 else 0
    arrived := s.arrived ++ if arrives then [word] else [] }

/-! ### Commands -/

/-- The controller sees something. -/
def signal (x : Signal) : Npi := { s with signals := s.signals ++ [x] }

/-- `rule process_command_fifo`: the address of a read is requested, or a write is started. -/
def processCommandFifo (addrAck : Bool) : Option Npi :=
  match s.master.commandQ with
  | [] => none
  | .readCommand addr size :: rest =>
    if s.master.state = .processCmd ∧ s.master.initDone = true then
      let t := s.signal (.addrReq (NpiCommand.readCommand addr size).addrReq addrAck)
      some (if addrAck then { t with master := { t.master with commandQ := rest } } else t)
    else none
  | .writeCommand _ size _ :: _ =>
    if s.master.state = .processCmd ∧ s.master.initDone = true then
      -- the whole burst is there
      some (if size.burstCountMax < s.master.writeQ.length then
          { s with master := { s.master with
            xferCount := size.burstCountMax
            state := if size = .burst1 then .processWriteSpecial else .processWrite } }
        else s)
    else none

/-- `rule process_write_fifo`: a word of a burst. -/
def processWriteFifo (wrFifoAlmostFull : Bool) : Option Npi :=
  match s.master.commandQ, s.master.writeQ with
  | c :: _, w :: ws =>
    if s.master.state = .processWrite ∧ s.master.initDone = true then
      some (if wrFifoAlmostFull then s
        else
          let t := s.signal (.wrFifoPush w.data (c.byteEnables w))
          { t with master := { t.master with
            state := if s.master.xferCount = 0 then .sendWrite else .processWrite
            xferCount := s.master.xferCount - 1
            writeQ := ws } })
    else none
  | _, _ => none

/-- `rule send_write_cmd`: the address of a write, behind its words. -/
def sendWriteCmd (addrAck : Bool) : Option Npi :=
  match s.master.commandQ with
  | [] => none
  | .readCommand _ _ :: _ =>
    if s.master.state = .sendWrite ∧ s.master.initDone = true then
      some { s with master := { s.master with state := .processCmd } }
    else none
  | .writeCommand addr size rmw :: rest =>
    if s.master.state = .sendWrite ∧ s.master.initDone = true then
      let t := s.signal (.addrReq (NpiCommand.writeCommand addr size rmw).addrReq addrAck)
      some (if addrAck then
          { t with master := { t.master with state := .processCmd, commandQ := rest } }
        else t)
    else none

/-- `rule send_write_cmd_special`: the address of a write of one word. -/
def sendWriteCmdSpecial (addrAck : Bool) : Option Npi :=
  match s.master.commandQ with
  | [] => none
  | .readCommand _ _ :: _ =>
    if s.master.state = .processWriteSpecial ∧ s.master.initDone = true then
      some { s with master := { s.master with state := .processCmd } }
    else none
  | .writeCommand addr size rmw :: _ =>
    if s.master.state = .processWriteSpecial ∧ s.master.initDone = true then
      let t := s.signal (.addrReq (NpiCommand.writeCommand addr size rmw).addrReq addrAck)
      some (if addrAck then
          { t with master := { t.master with state := .processWriteSpecialData } }
        else t)
    else none

/-- `rule process_write_fifo_special`: its word. -/
def processWriteFifoSpecial (wrFifoAlmostFull : Bool) : Option Npi :=
  match s.master.commandQ, s.master.writeQ with
  | c :: rest, w :: ws =>
    if s.master.state = .processWriteSpecialData ∧ s.master.initDone = true then
      some (if wrFifoAlmostFull then s
        else
          let t := s.signal (.wrFifoPush w.data (c.byteEnables w))
          { t with master := { t.master with
            state := .processCmd, commandQ := rest, writeQ := ws } })
    else none
  | _, _ => none

end Npi

/-- The rules and methods, with what comes from outside. -/
inductive Rule
  | burstReq (req : BurstRequest)
  | handleRead
  | handleWrite
  | readRsp
  | writeData (data : BitVec 64)
  | initDoneSet
  | readFifo (rdFifoEmpty : Bool) (word : NpiReadWord)
  | processCommandFifo (addrAck : Bool)
  | processWriteFifo (wrFifoAlmostFull : Bool)
  | sendWriteCmd (addrAck : Bool)
  | sendWriteCmdSpecial (addrAck : Bool)
  | processWriteFifoSpecial (wrFifoAlmostFull : Bool)

/-- A step, if the rule can fire. -/
def Npi.rule (s : Npi) : Rule → Option Npi
  | .burstReq req => s.burstReq req
  | .handleRead => s.handleRead P
  | .handleWrite => s.handleWrite P
  | .readRsp => s.readRsp P
  | .writeData data => s.writeData data
  | .initDoneSet => some s.initDoneSet
  | .readFifo rdFifoEmpty word => some (s.readFifo P rdFifoEmpty word)
  | .processCommandFifo addrAck => s.processCommandFifo addrAck
  | .processWriteFifo wrFifoAlmostFull => s.processWriteFifo wrFifoAlmostFull
  | .sendWriteCmd addrAck => s.sendWriteCmd addrAck
  | .sendWriteCmdSpecial addrAck => s.sendWriteCmdSpecial addrAck
  | .processWriteFifoSpecial wrFifoAlmostFull => s.processWriteFifoSpecial wrFifoAlmostFull

/-- A request has a size from 1 on, and its addresses do not wrap. -/
def Rule.Allowed : Rule → Prop
  | .burstReq req => 1 ≤ req.command.size ∧ req.command.size ≤ P.maxBurstSize ∧
      req.command.addr + req.command.size ≤ 2 ^ P.addressSize
  | _ => True

instance : ∀ r : Rule, Decidable (r.Allowed P)
  | .burstReq _ => inferInstanceAs (Decidable (_ ∧ _))
  | .handleRead | .handleWrite | .readRsp | .writeData _ | .initDoneSet | .readFifo _ _
  | .processCommandFifo _ | .processWriteFifo _ | .sendWriteCmd _ | .sendWriteCmdSpecial _
  | .processWriteFifoSpecial _ => inferInstanceAs (Decidable True)

/-- The runs in which every step meets a condition; `xfer_count` has no reset value. -/
def npi (C : Npi → Rule → Prop) : TransitionSystem Npi where
  init s := ∃ xferCount, s = { master := { xferCount } }
  step s t := ∃ r : Rule, r.Allowed P ∧ C s r ∧ s.rule P r = some t

/-- Steps from reset that are allowed and meet a condition. -/
def ran (C : Npi → Rule → Prop) [∀ s r, Decidable (C s r)] (rules : List Rule) :
    Option Npi :=
  rules.foldlM (TransitionSystem.attempt (fun s r => r.Allowed P ∧ C s r) fun s r => s.rule P r)
    { master := { xferCount := 0 } }

theorem ran_reachable {C : Npi → Rule → Prop} [∀ s r, Decidable (C s r)] {rules : List Rule}
    {s : Npi} (h : ran P C rules = some s) : (npi P C).Reachable s := by
  have hinit : (npi P C).Reachable { master := { xferCount := 0 } } := .init ⟨0, rfl⟩
  refine hinit.attempts ?_ h
  intro s r t hguard hst
  exact ⟨r, hguard.1, hguard.2, hst⟩

/-! ### What a step does -/

variable {P}

/-- What a rule does, with what it found. -/
inductive Step (P : Params) (s : Npi) : Rule → Npi → Prop
  | burstReq (req : BurstRequest) (hzero : s.wrapper.wordsRemaining = 0) :
    Step P s (.burstReq req) { s with
      wrapper := { s.wrapper with
        wordsRemaining := req.command.size
        address := req.command.addr
        handlingRead := req.isRead }
      requests := s.requests ++ [req] }
  | handleRead {b : NpiBurst} (hread : s.wrapper.handlingRead = true)
      (hpos : 0 < s.wrapper.wordsRemaining) (hnone : s.wrapper.outstandingReqs = 0)
      (hb : b = burstFor s.wrapper.wordsRemaining s.wrapper.address) :
    Step P s .handleRead { s.issue P (.readCommand (8 * s.wrapper.address) b) b with
      wrapper := { (s.issue P (.readCommand (8 * s.wrapper.address) b) b).wrapper with
        outstandingReqs := b.words } }
  | handleWrite {b : NpiBurst} (hwrite : s.wrapper.handlingRead = false)
      (hpos : 0 < s.wrapper.wordsRemaining)
      (hb : b = burstFor s.wrapper.wordsRemaining s.wrapper.address) :
    Step P s .handleWrite (s.issue P (.writeCommand (8 * s.wrapper.address) b false) b)
  | readRsp {word : NpiReadWord} {rest : List NpiReadWord} (hq : s.master.readQ = word :: rest)
      (htoken : 0 < s.master.readTokenQ) :
    Step P s .readRsp { s with
      wrapper := { s.wrapper with
        outstandingReqs :=
          (s.wrapper.outstandingReqs + (2 ^ countBits P - 1)) % 2 ^ countBits P }
      master := { s.master with readQ := rest, readTokenQ := s.master.readTokenQ - 1 }
      returned := s.returned ++ [word] }
  | writeData (data : BitVec 64) :
    Step P s (.writeData data) { s with
      master := { s.master with writeQ := s.master.writeQ ++ [⟨data, BitVec.allOnes 8⟩] }
      given := s.given ++ [data] }
  | initDoneSet : Step P s .initDoneSet s.initDoneSet
  | readFifo (rdFifoEmpty : Bool) (word : NpiReadWord) :
    Step P s (.readFifo rdFifoEmpty word) (s.readFifo P rdFifoEmpty word)
  /-- A rule that fires without an effect. -/
  | idle (r : Rule) : Step P s r s
  | readRequest {addr : ℕ} {size : NpiBurst} {rest : List NpiCommand} (addrAck : Bool)
      (hq : s.master.commandQ = .readCommand addr size :: rest)
      (hstate : s.master.state = .processCmd) :
    Step P s (.processCommandFifo addrAck) { s with
      master := { s.master with commandQ := if addrAck then rest else s.master.commandQ }
      signals := s.signals ++ [.addrReq (NpiCommand.readCommand addr size).addrReq addrAck] }
  | startWrite {addr : ℕ} {size : NpiBurst} {rmw : Bool} {rest : List NpiCommand} (addrAck : Bool)
      (hq : s.master.commandQ = .writeCommand addr size rmw :: rest)
      (hstate : s.master.state = .processCmd)
      (hready : size.burstCountMax < s.master.writeQ.length) :
    Step P s (.processCommandFifo addrAck) { s with master := { s.master with
      xferCount := size.burstCountMax
      state := if size = .burst1 then .processWriteSpecial else .processWrite } }
  | pushWord {c : NpiCommand} {rest : List NpiCommand} {w : NpiWriteWord} {ws : List NpiWriteWord}
      (hq : s.master.commandQ = c :: rest) (hw : s.master.writeQ = w :: ws)
      (hstate : s.master.state = .processWrite) :
    Step P s (.processWriteFifo false) { s with
      master := { s.master with
        state := if s.master.xferCount = 0 then .sendWrite else .processWrite
        xferCount := s.master.xferCount - 1
        writeQ := ws }
      signals := s.signals ++ [.wrFifoPush w.data (c.byteEnables w)] }
  | sendWrite {addr : ℕ} {size : NpiBurst} {rmw : Bool} {rest : List NpiCommand} (addrAck : Bool)
      (hq : s.master.commandQ = .writeCommand addr size rmw :: rest)
      (hstate : s.master.state = .sendWrite) :
    Step P s (.sendWriteCmd addrAck) { s with
      master := { s.master with
        state := if addrAck then .processCmd else .sendWrite
        commandQ := if addrAck then rest else s.master.commandQ }
      signals := s.signals ++ [.addrReq (NpiCommand.writeCommand addr size rmw).addrReq addrAck] }
  | sendSpecial {addr : ℕ} {size : NpiBurst} {rmw : Bool} {rest : List NpiCommand} (addrAck : Bool)
      (hq : s.master.commandQ = .writeCommand addr size rmw :: rest)
      (hstate : s.master.state = .processWriteSpecial) :
    Step P s (.sendWriteCmdSpecial addrAck) { s with
      master := { s.master with
        state := if addrAck then .processWriteSpecialData else .processWriteSpecial }
      signals := s.signals ++ [.addrReq (NpiCommand.writeCommand addr size rmw).addrReq addrAck] }
  /-- A read command in a state of a write. -/
  | giveUp {addr : ℕ} {size : NpiBurst} {rest : List NpiCommand} (r : Rule)
      (hq : s.master.commandQ = .readCommand addr size :: rest)
      (hstate : s.master.state = .sendWrite ∨ s.master.state = .processWriteSpecial) :
    Step P s r { s with master := { s.master with state := .processCmd } }
  | pushSpecial {c : NpiCommand} {rest : List NpiCommand} {w : NpiWriteWord}
      {ws : List NpiWriteWord} (hq : s.master.commandQ = c :: rest) (hw : s.master.writeQ = w :: ws)
      (hstate : s.master.state = .processWriteSpecialData) :
    Step P s (.processWriteFifoSpecial false) { s with
      master := { s.master with state := .processCmd, commandQ := rest, writeQ := ws }
      signals := s.signals ++ [.wrFifoPush w.data (c.byteEnables w)] }

variable {s t : Npi}

theorem handleRead_step (h : s.handleRead P = some t) : Step P s .handleRead t := by
  rw [Npi.handleRead] at h
  split_ifs at h with hguard
  obtain rfl := Option.some.inj h
  exact .handleRead hguard.1 hguard.2.1 hguard.2.2.1 rfl

theorem handleWrite_step (h : s.handleWrite P = some t) : Step P s .handleWrite t := by
  rw [Npi.handleWrite] at h
  split_ifs at h with hguard
  obtain rfl := Option.some.inj h
  exact .handleWrite hguard.1 hguard.2.1 rfl

theorem readRsp_step (h : s.readRsp P = some t) : Step P s .readRsp t := by
  rw [Npi.readRsp] at h
  split at h
  · cases h
  · next word rest hq =>
    split_ifs at h with htoken
    obtain rfl := Option.some.inj h
    exact .readRsp hq htoken

theorem processCommandFifo_step {addrAck : Bool} (h : s.processCommandFifo addrAck = some t) :
    Step P s (.processCommandFifo addrAck) t := by
  rw [Npi.processCommandFifo] at h
  split at h
  · cases h
  · next addr size rest hq =>
    split at h
    · next hguard =>
      obtain rfl := Option.some.inj h
      have hstep := Step.readRequest (P := P) addrAck hq hguard.1
      cases addrAck <;> exact hstep
    · cases h
  · next addr size rmw rest hq =>
    split at h
    · next hguard =>
      obtain rfl := Option.some.inj h
      by_cases hready : size.burstCountMax < s.master.writeQ.length
      · rw [if_pos hready]
        exact .startWrite addrAck hq hguard.1 hready
      · rw [if_neg hready]
        exact .idle _
    · cases h

theorem processWriteFifo_step {almostFull : Bool} (h : s.processWriteFifo almostFull = some t) :
    Step P s (.processWriteFifo almostFull) t := by
  rw [Npi.processWriteFifo] at h
  split at h
  · next c rest w ws hq hw =>
    split at h
    · next hguard =>
      obtain rfl := Option.some.inj h
      cases almostFull with
      | true => exact .idle _
      | false => exact .pushWord hq hw hguard.1
    · cases h
  · cases h

theorem sendWriteCmd_step {addrAck : Bool} (h : s.sendWriteCmd addrAck = some t) :
    Step P s (.sendWriteCmd addrAck) t := by
  rw [Npi.sendWriteCmd] at h
  split at h
  · cases h
  · next addr size rest hq =>
    split at h
    · next hguard =>
      obtain rfl := Option.some.inj h
      exact .giveUp _ hq (.inl hguard.1)
    · cases h
  · next addr size rmw rest hq =>
    split at h
    · next hguard =>
      obtain rfl := Option.some.inj h
      have hstep := Step.sendWrite (P := P) addrAck hq hguard.1
      cases addrAck with
      | true => exact hstep
      | false =>
        rw [if_neg Bool.false_ne_true, if_neg Bool.false_ne_true, ← hguard.1] at hstep
        exact hstep
    · cases h

theorem sendWriteCmdSpecial_step {addrAck : Bool} (h : s.sendWriteCmdSpecial addrAck = some t) :
    Step P s (.sendWriteCmdSpecial addrAck) t := by
  rw [Npi.sendWriteCmdSpecial] at h
  split at h
  · cases h
  · next addr size rest hq =>
    split at h
    · next hguard =>
      obtain rfl := Option.some.inj h
      exact .giveUp _ hq (.inr hguard.1)
    · cases h
  · next addr size rmw rest hq =>
    split at h
    · next hguard =>
      obtain rfl := Option.some.inj h
      have hstep := Step.sendSpecial (P := P) addrAck hq hguard.1
      cases addrAck with
      | true => exact hstep
      | false =>
        rw [if_neg Bool.false_ne_true, ← hguard.1] at hstep
        exact hstep
    · cases h

theorem processWriteFifoSpecial_step {almostFull : Bool}
    (h : s.processWriteFifoSpecial almostFull = some t) :
    Step P s (.processWriteFifoSpecial almostFull) t := by
  rw [Npi.processWriteFifoSpecial] at h
  split at h
  · next c rest w ws hq hw =>
    split at h
    · next hguard =>
      obtain rfl := Option.some.inj h
      cases almostFull with
      | true => exact .idle _
      | false => exact .pushSpecial hq hw hguard.1
    · cases h
  · cases h

/-- Every step is one of these. -/
theorem rule_step {r : Rule} (h : s.rule P r = some t) : Step P s r t := by
  cases r with
  | burstReq req =>
    rw [Npi.rule, Npi.burstReq] at h
    split_ifs at h with hzero
    obtain rfl := Option.some.inj h
    exact .burstReq req hzero
  | handleRead => exact handleRead_step h
  | handleWrite => exact handleWrite_step h
  | readRsp => exact readRsp_step h
  | writeData data =>
    rw [Npi.rule, Npi.writeData] at h
    split_ifs at h
    obtain rfl := Option.some.inj h
    exact .writeData data
  | initDoneSet =>
    obtain rfl := Option.some.inj h
    exact .initDoneSet
  | readFifo rdFifoEmpty word =>
    obtain rfl := Option.some.inj h
    exact .readFifo rdFifoEmpty word
  | processCommandFifo addrAck => exact processCommandFifo_step h
  | processWriteFifo wrFifoAlmostFull => exact processWriteFifo_step h
  | sendWriteCmd addrAck => exact sendWriteCmd_step h
  | sendWriteCmdSpecial addrAck => exact sendWriteCmdSpecial_step h
  | processWriteFifoSpecial wrFifoAlmostFull => exact processWriteFifoSpecial_step h

end SdramXupv2

end LeapPlatforms
