import LeapPlatforms.Aurora.GroupedLink

/-!
# The driver `aurora-reliable-handshake`

The constants, the handshake and the receive rule of the driver. Before data is sent the endpoints
exchange heartbeats, which are numbered and carry how many consecutive ones the sender has seen. The
receive rule differs from that of `aurora-reliable-aggregate-crc` in what it does with a group that
fails: a payload flit that is wrong sets `frameErrorRX` and nothing else, and a header looks at the
position in the group without looking at `frameErrorRX`.

## Main definitions

* `Handshake.Params`, `Params.format`
* `Endpoint`, `rxHeartbeat`, `rxPayload`, `rxHeader`, `rxDemarsh`
* `Rule`, `machine`
* `careful` — where the receive rule does not lose track of a group
-/

namespace LeapPlatforms

namespace Aurora

namespace Handshake

open LossyLink (Flit Kind Machine Side Duplex)
open Grouped (Core Format Raw Data Word SharedRule)

/-- What an instance of the module is built with. -/
structure Params where
  /-- `control_data_size`. -/
  controlDataSize : ℕ
  /-- A heartbeat fits a control flit. -/
  controlDataSize_ge : 11 ≤ controlDataSize
  /-- `interface_words`: data flits in a word. -/
  interfaceWords : ℕ
  /-- A word is not empty. -/
  interfaceWords_pos : 0 < interfaceWords
  /-- `AURORA_INTERFACE_FREQ`. -/
  interfaceFreq : ℕ
  /-- `AURORA_INTERFACE_TIMING_PARAMETER`. -/
  timingParameter : ℕ

/-- The tag of a frame header. -/
def header : BitVec 3 := 0b100

/-- The tag of an acknowledgement. -/
def ack : BitVec 3 := 0b110

/-- The tag of a heartbeat. -/
def heartbeat : BitVec 3 := 0b111

/-- The driver's constants. -/
def Params.format (P : Params) : Format where
  tagExtra := 2
  header := header
  ack := ack
  header_msb := rfl
  ack_msb := rfl
  ack_ne_header := by decide
  controlDataSize := P.controlDataSize
  controlDataSize_ge := Nat.le_trans (Nat.le_add_right 3 8) P.controlDataSize_ge
  interfaceWords := P.interfaceWords
  interfaceWords_pos := P.interfaceWords_pos
  frameWords := 8
  frameWords_pos := Nat.succ_pos _
  ackCapacity := 2
  timeoutThreshold := 1000 * P.interfaceFreq

/-- The tag of a heartbeat, among the driver's tags. -/
def Params.heartbeat (P : Params) : BitVec (P.format.tagExtra + 1) := Handshake.heartbeat

variable {P : Params}

variable (P) in
/-- The registers and queues of the module. -/
structure Endpoint where
  /-- Those that both drivers with grouped checksums have. -/
  core : Core P.format
  /-- `ccCycles`: clock compensation cycles to wait for. -/
  ccCycles : ℕ
  /-- `ccDone`: none are left. -/
  ccDone : Bool
  /-- `heartbeatTimer`: the time between two heartbeats. -/
  heartbeatTimer : ℕ
  /-- `handshakeRXDone`: frames are received. -/
  handshakeRXDone : Bool
  /-- `handshakeTXDone`: frames may be sent. -/
  handshakeTXDone : Bool
  /-- `heartbeatTX`: the number of the next heartbeat. -/
  heartbeatTX : BitVec 5
  /-- `heartbeatRX`: the number of the last heartbeat received. -/
  heartbeatRX : BitVec 5
  /-- `heartbeatConsecutive`: heartbeats received with consecutive numbers. -/
  heartbeatConsecutive : BitVec 5
  /-- `heartbeatFirst`: none was counted yet. -/
  heartbeatFirst : Bool
  /-- History: the payload flits accepted of the group that is open. -/
  group : List (Data P.format)
  /-- History: the groups whose checksum was verified. -/
  verified : List (List (Data P.format))

namespace Endpoint

variable (P) in
/-- The endpoint after reset. -/
def reset : Endpoint P where
  core := .reset P.format
  ccCycles := 2 ^ P.timingParameter - 1
  ccDone := false
  heartbeatTimer := 0
  handshakeRXDone := false
  handshakeTXDone := false
  heartbeatTX := 0
  heartbeatRX := 0
  heartbeatConsecutive := 0
  heartbeatFirst := true
  group := []
  verified := []

/-- The endpoint after a rule that works on the shared registers. -/
def withCore (e : Endpoint P) (r : Option (Core P.format × Option (Raw P.format))) :
    Option (Endpoint P × Option (Raw P.format)) :=
  r.map fun (c, out) => ({ e with core := c }, out)

/-- `rule beat`. -/
def beat (e : Endpoint P) : Endpoint P :=
  { e with heartbeatTimer := (e.heartbeatTimer + 1) % 2 ^ P.timingParameter }

/-- `rule tickCC`. -/
def tickCC (e : Endpoint P) : Option (Endpoint P) :=
  if 0 < e.ccCycles then
    some { e with
      ccCycles := e.ccCycles - 1
      ccDone := if e.ccCycles - 1 = 0 then true else e.ccDone }
  else none

/-- `rule txHeader`. -/
def txHeader (e : Endpoint P) : Option (Core P.format × Raw P.format) :=
  if e.handshakeTXDone then e.core.txHeader else none

/-- `rule txACK`. -/
def txACK (e : Endpoint P) : Option (Core P.format × Raw P.format) :=
  if e.ccDone then e.core.txACK else none

/-- The value of a heartbeat. -/
def heartbeatValue (e : Endpoint P) : BitVec (1 + 5 + 5) :=
  BitVec.ofBool e.handshakeTXDone ++ e.heartbeatConsecutive ++ e.heartbeatTX

/-- `rule txHeartbeat`. -/
def txHeartbeat (e : Endpoint P) : Option (Endpoint P × Raw P.format) :=
  if e.ccDone = true ∧ e.heartbeatTimer = 0 then
    some ({ e with heartbeatTX := e.heartbeatTX + 1 },
      Grouped.packControl P.heartbeat e.heartbeatValue.toNat)
  else none

/-- `rule rxDemarsh` on a heartbeat. -/
def rxHeartbeat (ctrlPayload : BitVec P.controlDataSize) (e : Endpoint P) : Endpoint P :=
  let heartbeatRXNew := ctrlPayload.extractLsb' 0 5
  let heartbeatConsecutivePartner := ctrlPayload.extractLsb' 5 5
  let handshakeTXDonePartner := ctrlPayload.extractLsb' 10 1
  -- a first heartbeat from a partner that is initialized does not count
  let counts := e.heartbeatRX + 1 == heartbeatRXNew &&
    (!e.heartbeatFirst || handshakeTXDonePartner == 0)
  { e with
    heartbeatRX := heartbeatRXNew
    heartbeatFirst := if counts then false else e.heartbeatFirst
    heartbeatConsecutive := if counts then e.heartbeatConsecutive + 1 else e.heartbeatConsecutive
    handshakeRXDone :=
      if 6 < e.heartbeatConsecutive ∧ 6 < heartbeatConsecutivePartner then true
      else e.handshakeRXDone
    handshakeTXDone :=
      if 8 < e.heartbeatConsecutive ∧ 8 < heartbeatConsecutivePartner then true
      else e.handshakeTXDone }

end Endpoint

/-- `rule rxDemarsh` on a payload flit. -/
def rxPayload (x : Flit (Raw P.format)) (c : Core P.format) : Option (Core P.format) :=
  if c.notCorrupt x && !c.frameErrorRX then
    Core.acceptFragment (Grouped.dataOf x.raw) c (c.nextPosition.nextFragment x)
  else if !c.notCorrupt x then some { c.nextPosition with frameErrorRX := true }
  else some c.nextPosition

/-- `rule rxDemarsh` on a header. -/
def rxHeader (handshakeRXDone : Bool) (x : Flit (Raw P.format)) (c : Core P.format) :
    Core P.format :=
  let frameErrorNext := futureFrame c.sequenceNumberRX (Grouped.sequenceOf x.raw) ||
    (!c.notCorrupt x && handshakeRXDone)
  let c₁ :=
    if c.fresh && c.fragmentNumberRX != 0 then
      { c with demarshaller := [], framePositionRX := c.rollBackPosition }
    else c
  c₁.newFrame x frameErrorNext

/-- The history of the group that is open after a payload flit: the flit is accepted or not. -/
def groupAfter (x : Flit (Raw P.format)) (c : Core P.format) (group : List (Data P.format)) :
    List (Data P.format) :=
  if (c.notCorrupt x && !c.frameErrorRX) = true ∧ c.endsGroup = false then
    group ++ [Grouped.dataOf x.raw]
  else []

/-- The history of the verified groups after a payload flit: the flit ends one, or not. -/
def verifiedAfter (x : Flit (Raw P.format)) (c : Core P.format) (group : List (Data P.format))
    (verified : List (List (Data P.format))) : List (List (Data P.format)) :=
  if (c.notCorrupt x && !c.frameErrorRX) = true ∧ c.endsGroup = true then
    verified ++ [group ++ [Grouped.dataOf x.raw]]
  else verified

/-- `rule rxDemarsh`. -/
def rxDemarsh (e : Endpoint P) : Option (Endpoint P) :=
  match e.core.serdesInfifo with
  | [] => none
  | x :: rest =>
    let c := { e.core with serdesInfifo := rest }
    if Grouped.ctrlOf x.raw = Grouped.payload then
      (rxPayload x c).map fun c' => { e with
        core := c'
        group := groupAfter x c e.group
        verified := verifiedAfter x c e.group e.verified }
    else if Grouped.tagOf x.raw = P.format.header then
      some { e with core := rxHeader e.handshakeRXDone x c, group := [] }
    else if Grouped.tagOf x.raw = P.format.ack then
      (c.rxAck x).map fun c' => { e with core := c' }
    else if Grouped.tagOf x.raw = P.heartbeat ∧ c.notCorrupt x = true then
      some ({ e with core := c }.rxHeartbeat (Grouped.controlOf x.raw))
    else some { e with core := c }

variable (P) in
/-- The rules of the module, and the methods of its user. -/
inductive Rule
  /-- A rule of the shared registers. -/
  | shared (r : SharedRule P.format)
  | beat
  | tickCC
  | txHeader
  | txACK
  | txHeartbeat
  | rxDemarsh

/-- A step of the endpoint: the new state, and the flit sent if one is. -/
def rule : Rule P → Endpoint P → Option (Endpoint P × Option (Raw P.format))
  | .shared r, e => e.withCore (r.rule e.core)
  | .beat, e => some (e.beat, none)
  | .tickCC, e => e.tickCC.map (·, none)
  | .txHeader, e => e.withCore (Core.send e.txHeader)
  | .txACK, e => e.withCore (Core.send e.txACK)
  | .txHeartbeat, e => e.txHeartbeat.map fun (e', f) => (e', some f)
  | .rxDemarsh, e => (rxDemarsh e).map (·, none)

variable (P) in
/-- The driver as a machine on a link. -/
def machine : Machine (Endpoint P) (Rule P) (Raw P.format) where
  reset := .reset P
  rule := rule
  intake x e := (e.core.rxIntake x).map fun c => { e with core := c }
  kind := Grouped.kind
  examines
    | .rxDemarsh, e => e.core.serdesInfifo.head?
    | _, _ => none
  passes e := e.core.passes

/-- Where the receive rule does not lose track of a group. A group is tracked if the registers say
that the receiver waits for it and is inside it; then no payload flit of it fails its check, and no
header arrives in a frame with an error. -/
def careful : Rule P → Endpoint P → Bool
  | .rxDemarsh, e =>
    match e.core.serdesInfifo with
    | [] => true
    | x :: _ =>
      let inside := e.core.fresh && e.core.fragmentNumberRX != 0
      match Grouped.kind x.raw with
      | .payload => !(inside && !e.core.frameErrorRX && !e.core.notCorrupt x)
      | .header => !(inside && e.core.frameErrorRX)
      | .control => true
  | _, _ => true

end Handshake

end Aurora

end LeapPlatforms
