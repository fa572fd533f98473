import LeapPlatforms.Aurora.ReliableSender
import LeapPlatforms.Foundation.FifoLink
import LeapPlatforms.Foundation.Marshal

/-!
# The driver `aurora-flowcontrol`

A link that loses nothing, with credits. Three kinds of messages share it: heartbeats and credit
messages are one flit each, told by their first two bits; a word is `interface_words` flits, and
only its first flit has a bit that says so. Both ends count the flits of a word.

A flit carries, besides what is sent, a note of the rule that sent it. No rule reads the note.

Clock compensation happens at any time: `tickCC` may fire whenever the count allows. The clock
crossings of the user's queues are lists. A rule that fills a queue in one of its branches waits for
that queue in that branch.

## Main definitions

* `FlowControl.Params`, `Sent`, `Flit`
* `Endpoint` — the registers and queues, and the rules on them
* `Rule`, `machine`
* `Kind`, `classify` — what the receiver takes a flit for
-/

namespace LeapPlatforms

namespace Aurora

namespace FlowControl

/-- What an instance of the module is built with. -/
structure Params where
  /-- `width_extra`: the bits of a flit that are not its tag. -/
  widthExtra : ℕ
  /-- A heartbeat fits a flit. -/
  widthExtra_ge : 11 ≤ widthExtra
  /-- `interface_words`: flits in a word. -/
  interfaceWords : ℕ
  /-- A word is not empty. -/
  interfaceWords_pos : 0 < interfaceWords

variable (P : Params)

namespace Params

/-- `width`. -/
abbrev width : ℕ := 2 + P.widthExtra

/-- `interface_width`: one bit less than the flits of a word have. -/
@[irreducible] def wordSize : ℕ := P.interfaceWords * P.width - 1

/-- The flits of a word, counted in registers of one bit more than `TLog#(interface_words)`. -/
def flitCounter : FrameCounter where
  size := P.interfaceWords
  width := 1 + Nat.clog 2 P.interfaceWords
  mark := P.interfaceWords
  size_pos := P.interfaceWords_pos
  size_le := Nat.le_trans (Nat.le_pow_clog (by decide) _)
    (Nat.pow_le_pow_right (by decide) (Nat.le_add_left _ _))
  mark_spec p hp := by
    have hclog : P.interfaceWords ≤ 2 ^ Nat.clog 2 P.interfaceWords := Nat.le_pow_clog (by decide) _
    have hpos := P.interfaceWords_pos
    have hlt : P.interfaceWords < 2 ^ (1 + Nat.clog 2 P.interfaceWords) := by
      rw [Nat.pow_add, Nat.pow_one]
      omega
    rw [Nat.mod_eq_of_lt hlt, Nat.mod_eq_of_lt (by omega)]

end Params

/-- `total_credits`. -/
def totalCredits : ℕ := 128

/-- `half_credits`. -/
def halfCredits : ℕ := 64

/-- `three_quarters_credits`. -/
def threeQuartersCredits : ℕ := 96

/-- A credit count: `TAdd#(1,TLog#(total_credits))` bits. -/
def creditRange : ℕ := 2 ^ 8

/-- A flit on the link: `width` bits. -/
abbrev Raw : Type := BitVec P.width

/-- A word of the user interface. -/
abbrev Word : Type := BitVec P.wordSize

/-- A note of what a flit was sent as. -/
inductive Sent
  /-- The heartbeat with this number, counted from reset, with the sender's
  `heartbeatConsecutive`. -/
  | heartbeat (number : ℕ) (consecutive : BitVec 5)
  /-- A credit message. -/
  | credit (value : ℕ)
  /-- A flit of a word. -/
  | data
  deriving DecidableEq, Repr

/-- A flit on the link. -/
structure Flit where
  /-- What is sent. -/
  raw : Raw P
  /-- A note of what it was sent as. -/
  sent : Sent

/-- What the receiver takes a flit for. -/
inductive Kind
  | heartbeat
  | credit
  | data
  deriving DecidableEq, Repr

/-- What a flit was sent as. -/
def Sent.kind : Sent → Kind
  | .heartbeat _ _ => .heartbeat
  | .credit _ => .credit
  | .data => .data

variable {P}

theorem wordSize_add : 1 + P.wordSize = P.interfaceWords * P.width := by
  have hle : 1 * P.width ≤ P.interfaceWords * P.width :=
    Nat.mul_le_mul_right _ P.interfaceWords_pos
  have : 1 ≤ P.width := Nat.le_trans (by decide) (Nat.le_add_right 2 _)
  rw [Params.wordSize]
  omega

/-- A word with the bit that tells its first flit, as `txData` gives it to the marshaller. -/
def extend (w : Word P) : BitVec (P.interfaceWords * P.width) :=
  ((0 : BitVec 1) ++ w).cast wordSize_add

/-- A word without that bit, as `rxDone` takes it from the demarshaller. -/
def restrict (x : BitVec (P.interfaceWords * P.width)) : Word P := x.extractLsb' 0 _

/-- The first two bits of a flit: `truncateLSB(data)`. -/
def tagOf (raw : Raw P) : BitVec 2 := raw.extractLsb' P.widthExtra 2

/-- The tag of a heartbeat. -/
def heartbeatTag : BitVec 2 := 0b10

/-- The tag of a credit message. -/
def creditTag : BitVec 2 := 0b11

/-- A heartbeat. -/
def heartbeatWord (handshakeTXDone : Bool) (heartbeatConsecutive heartbeatTX : BitVec 5) : Raw P :=
  heartbeatTag ++
    (BitVec.ofBool handshakeTXDone ++ heartbeatConsecutive ++ heartbeatTX).setWidth P.widthExtra

/-- `creditWord`. -/
def creditWord (credits : ℕ) : Raw P := creditTag ++ BitVec.ofNat P.widthExtra credits

variable (P) in
/-- The registers and queues of the module. -/
structure Endpoint where
  /-- `ccCycles`: clock compensation cycles to wait for. -/
  ccCycles : ℕ
  /-- `flitCountRX`: the position in the word being received. -/
  flitCountRX : ℕ
  /-- `flitCountTX`: the position in the word being sent. -/
  flitCountTX : ℕ
  /-- `txCredits`: words that may be sent. -/
  txCredits : ℕ
  /-- `rxCredits`: words received that the peer was not told of. -/
  rxCredits : ℕ
  /-- `creditUnderflow`. -/
  creditUnderflow : Bool
  /-- `handshakeRXDone`: data and credits are received. -/
  handshakeRXDone : Bool
  /-- `handshakeTXDone`: data may be sent. -/
  handshakeTXDone : Bool
  /-- `heartbeatTX`: the number of the next heartbeat. -/
  heartbeatTX : BitVec 5
  /-- `heartbeatRX`: the number of the last heartbeat received. -/
  heartbeatRX : BitVec 5
  /-- `heartbeatConsecutive`: heartbeats received with consecutive numbers. -/
  heartbeatConsecutive : BitVec 5
  /-- `heartbeatFirst`: none was counted yet. -/
  heartbeatFirst : Bool
  /-- `heartbeat`: the time between two heartbeats. -/
  heartbeat : ℕ
  /-- `serdes_txfifo`: words from the user. -/
  serdesTxfifo : List (Word P)
  /-- `marshaller`: the flits left of a word. -/
  marshaller : List (Raw P)
  /-- `serdes_infifo`: flits received. -/
  serdesInfifo : List (Raw P)
  /-- `demarshaller`: the flits of an incomplete word, or of one not dequeued. -/
  demarshaller : List (Raw P)
  /-- `creditFIFO`: credits received. -/
  creditFIFO : List ℕ
  /-- `serdes_rxfifo`: words for the user. -/
  serdesRxfifo : List (Word P)
  /-- History: what `heartbeatConsecutive` was in each of the heartbeats sent. -/
  heartbeatsSent : List (BitVec 5)
  /-- History: the words sent. -/
  wordsSent : List (Word P)
  /-- History: the words put into `serdes_rxfifo`. -/
  wordsReceived : List (Word P)
  /-- History: the credit values sent. -/
  creditsSent : List ℕ
  /-- History: the credit values put into `creditFIFO`. -/
  creditsReceived : List ℕ

namespace Endpoint

variable (P) in
/-- The endpoint after reset. -/
def reset : Endpoint P where
  ccCycles := 2 ^ 10 - 1
  flitCountRX := 0
  flitCountTX := 0
  txCredits := totalCredits
  rxCredits := 0
  creditUnderflow := false
  handshakeRXDone := false
  handshakeTXDone := false
  heartbeatTX := 0
  heartbeatRX := 0
  heartbeatConsecutive := 0
  heartbeatFirst := true
  heartbeat := 0
  serdesTxfifo := []
  marshaller := []
  serdesInfifo := []
  demarshaller := []
  creditFIFO := []
  serdesRxfifo := []
  heartbeatsSent := []
  wordsSent := []
  wordsReceived := []
  creditsSent := []
  creditsReceived := []

/-- The user's `write`. -/
def write (w : Word P) (e : Endpoint P) : Option (Endpoint P) :=
  if e.serdesTxfifo.length < 8 then some { e with serdesTxfifo := e.serdesTxfifo ++ [w] } else none

/-- `rule tickCC`. -/
def tickCC (e : Endpoint P) : Option (Endpoint P) :=
  if 0 < e.ccCycles then some { e with ccCycles := e.ccCycles - 1 } else none

/-- `rule beat`. -/
def beat (e : Endpoint P) : Endpoint P := { e with heartbeat := (e.heartbeat + 1) % 2 ^ 11 }

/-- `rule txHeartbeat`. -/
def txHeartbeat (e : Endpoint P) : Option (Endpoint P × Flit P) :=
  if e.ccCycles = 0 ∧ e.heartbeat = 0 ∧ e.flitCountTX = 0 then
    some ({ e with
        heartbeatTX := e.heartbeatTX + 1
        heartbeatsSent := e.heartbeatsSent ++ [e.heartbeatConsecutive] },
      { raw := heartbeatWord e.handshakeTXDone e.heartbeatConsecutive e.heartbeatTX
        sent := .heartbeat e.heartbeatsSent.length e.heartbeatConsecutive })
  else none

/-- `rule txFC`. -/
def txFC (e : Endpoint P) : Option (Endpoint P × Flit P) :=
  if e.flitCountTX = 0 ∧ ((halfCredits < e.rxCredits ∧ (e.marshaller = [] ∨ e.txCredits = 0)) ∨
      threeQuartersCredits < e.rxCredits) then
    some ({ e with rxCredits := 0, creditsSent := e.creditsSent ++ [e.rxCredits] },
      { raw := creditWord e.rxCredits, sent := .credit e.rxCredits })
  else none

/-- `rule txData`. -/
def txData (e : Endpoint P) : Option (Endpoint P) :=
  match e.serdesTxfifo, e.marshaller with
  | w :: rest, [] =>
    if e.handshakeTXDone = true ∧ 0 < e.txCredits then
      some { e with
        serdesTxfifo := rest
        marshaller := Marshal.split P.interfaceWords (extend w)
        txCredits := (e.txCredits + creditRange - 1) % creditRange
        wordsSent := e.wordsSent ++ [w] }
    else none
  | _, _ => none

/-- `rule txSend`. -/
def txSend (e : Endpoint P) : Option (Endpoint P × Flit P) :=
  match e.marshaller with
  | [] => none
  | d :: rest =>
    if e.handshakeTXDone then
      some ({ e with
        marshaller := rest
        flitCountTX :=
          if P.flitCounter.isLast e.flitCountTX then 0 else P.flitCounter.succ e.flitCountTX },
        { raw := d, sent := .data })
    else none

/-- `rule rxIntake` on a heartbeat. -/
def rxHeartbeat (data : Raw P) (e : Endpoint P) : Endpoint P :=
  let heartbeatRXNew := data.extractLsb' 0 5
  let heartbeatConsecutivePartner := data.extractLsb' 5 5
  let handshakeTXDonePartner := data.extractLsb' 10 1
  -- a first heartbeat from a partner that is initialized does not count
  let counts := e.heartbeatRX + 1 == heartbeatRXNew &&
    (!e.heartbeatFirst || handshakeTXDonePartner == 0)
  { e with
    heartbeatRX := heartbeatRXNew
    heartbeatFirst := if counts then false else e.heartbeatFirst
    heartbeatConsecutive := if counts then e.heartbeatConsecutive + 1 else e.heartbeatConsecutive
    handshakeRXDone :=
      if 6 < e.heartbeatConsecutive ∧ 6 < heartbeatConsecutivePartner then true
      else e.handshakeRXDone
    handshakeTXDone :=
      if 8 < e.heartbeatConsecutive ∧ 8 < heartbeatConsecutivePartner then true
      else e.handshakeTXDone }

/-- `rule rxIntake` on a flit of a word: `adjustFlitCount` is set. -/
def rxData (data : Raw P) (e : Endpoint P) : Option (Endpoint P) :=
  if e.serdesInfifo.length < totalCredits * P.interfaceWords then
    some { e with
      serdesInfifo := e.serdesInfifo ++ [data]
      flitCountRX :=
        if P.flitCounter.isLast e.flitCountRX then 0 else P.flitCounter.succ e.flitCountRX }
  else none

/-- `rule rxIntake` on a credit message. -/
def rxCredit (data : Raw P) (e : Endpoint P) : Option (Endpoint P) :=
  if e.creditFIFO.length < 4 then
    let value := data.toNat % creditRange
    some { e with
      creditFIFO := e.creditFIFO ++ [value], creditsReceived := e.creditsReceived ++ [value] }
  else none

/-- What the receiver takes a flit for. -/
def classify (e : Endpoint P) (data : Raw P) : Kind :=
  if e.flitCountRX = 0 then
    if tagOf data = creditTag then .credit
    else if tagOf data = heartbeatTag then .heartbeat
    else .data
  else .data

/-- `rule rxIntake`. Before the handshake is done, credit messages and the first flits of words are
discarded. -/
def rxIntake (data : Raw P) (e : Endpoint P) : Option (Endpoint P) :=
  if e.flitCountRX = 0 then
    if tagOf data = creditTag then
      if e.handshakeRXDone then e.rxCredit data else some e
    else if tagOf data = heartbeatTag then some (e.rxHeartbeat data)
    else if e.handshakeRXDone then e.rxData data
    else some e
  else e.rxData data

/-- `rule updateCredit`. -/
def updateCredit (e : Endpoint P) : Option (Endpoint P) :=
  match e.creditFIFO with
  | [] => none
  | v :: rest =>
    let sum := (e.txCredits + v) % creditRange
    some { e with
      creditFIFO := rest
      txCredits := sum
      creditUnderflow := if totalCredits < sum then true else e.creditUnderflow }

/-- `rule rxDemarsh`. -/
def rxDemarsh (e : Endpoint P) : Option (Endpoint P) :=
  match e.serdesInfifo with
  | [] => none
  | d :: rest =>
    if e.demarshaller.length < P.interfaceWords then
      some { e with serdesInfifo := rest, demarshaller := e.demarshaller ++ [d] }
    else none

/-- `rule rxDone`. -/
def rxDone (e : Endpoint P) : Option (Endpoint P) :=
  if e.demarshaller.length = P.interfaceWords ∧ e.serdesRxfifo.length < 8 then
    let w := restrict (Marshal.join P.interfaceWords e.demarshaller)
    some { e with
      demarshaller := []
      rxCredits := (e.rxCredits + 1) % creditRange
      serdesRxfifo := e.serdesRxfifo ++ [w]
      wordsReceived := e.wordsReceived ++ [w] }
  else none

/-- The user's `deq`. -/
def deq (e : Endpoint P) : Option (Endpoint P) :=
  match e.serdesRxfifo with
  | [] => none
  | _ :: rest => some { e with serdesRxfifo := rest }

end Endpoint

variable (P) in
/-- The rules of the module, and the methods of its user. -/
inductive Rule
  | write (w : Word P)
  | tickCC
  | beat
  | txHeartbeat
  | txFC
  | txData
  | txSend
  | updateCredit
  | rxDemarsh
  | rxDone
  | deq

/-- A step of the endpoint: the new state, and the flit sent if one is. -/
def rule : Rule P → Endpoint P → Option (Endpoint P × Option (Flit P))
  | .write w, e => (e.write w).map (·, none)
  | .tickCC, e => e.tickCC.map (·, none)
  | .beat, e => some (e.beat, none)
  | .txHeartbeat, e => e.txHeartbeat.map fun (e', f) => (e', some f)
  | .txFC, e => e.txFC.map fun (e', f) => (e', some f)
  | .txData, e => e.txData.map (·, none)
  | .txSend, e => e.txSend.map fun (e', f) => (e', some f)
  | .updateCredit, e => e.updateCredit.map (·, none)
  | .rxDemarsh, e => e.rxDemarsh.map (·, none)
  | .rxDone, e => e.rxDone.map (·, none)
  | .deq, e => e.deq.map (·, none)

variable (P) in
/-- The driver as a machine on a link. -/
def machine : FifoLink.Machine (Endpoint P) (Rule P) (Flit P) where
  rule := rule
  intake x e := e.rxIntake x.raw

end FlowControl

end Aurora

end LeapPlatforms
