import LeapPlatforms.Aurora.ReliableSender
import LeapPlatforms.Aurora.SequenceWindow
import LeapPlatforms.Foundation.Crc
import LeapPlatforms.Foundation.LossyLink
import LeapPlatforms.Foundation.Marshal

/-!
# What the drivers with grouped checksums share

`aurora-reliable-aggregate-crc` and `aurora-reliable-handshake` spend one checksum on all the data
flits of a word: the last of them carries it, and the receiver knows only then whether the others
were right. Their files agree, up to the tags of control flits and a few constants, on everything
except what the receiver does with a flit that fails its check. This module is what they agree on;
`AggregateCrc` and `Handshake` apply it to their own constants and add the receive rule.

A word of the user is extended by eight zero bits at its low end, where its last flit carries the
checksum, and cut into `interface_words` data flits.

## Main definitions

* `Grouped.Format` — tags, widths and frame size
* `doHash`, `packFragment`, `packControl` — flits as they are sent
* `ctrlOf`, `dataOf`, `tagOf`, `controlOf`, `hashOf` — a raw fragment, unpacked
* `Core` — the registers and queues that both drivers have, and the rules on them

## Main results

* `kind_packFragment`, `kind_header`, `kind_control`, `sequenceOf_packControl` — what a packed flit
  is read as
-/

namespace LeapPlatforms

namespace Aurora

open LossyLink (Flit Kind)

namespace Grouped

/-- What the two drivers differ in: the tags of control flits, the widths and the frame size. -/
structure Format where
  /-- The bits of a control flit's tag, less one. -/
  tagExtra : ℕ
  /-- The tag of a frame header. -/
  header : BitVec (tagExtra + 1)
  /-- The tag of an acknowledgement. -/
  ack : BitVec (tagExtra + 1)
  /-- No tag looks like a payload flit. -/
  header_msb : header.extractLsb' tagExtra 1 = 1
  /-- No tag looks like a payload flit. -/
  ack_msb : ack.extractLsb' tagExtra 1 = 1
  /-- The tags differ. -/
  ack_ne_header : ack ≠ header
  /-- `control_data_size`. -/
  controlDataSize : ℕ
  /-- A sequence number fits a control flit. -/
  controlDataSize_ge : 3 ≤ controlDataSize
  /-- `interface_words`: data flits in a word. -/
  interfaceWords : ℕ
  /-- A word is not empty. -/
  interfaceWords_pos : 0 < interfaceWords
  /-- `frame_words`: words in a frame. -/
  frameWords : ℕ
  /-- A frame is not empty. -/
  frameWords_pos : 0 < frameWords
  /-- The size of `ackRX`. -/
  ackCapacity : ℕ
  /-- `timeoutThreshold`. -/
  timeoutThreshold : ℕ

variable (F : Format)

namespace Format

/-- `data_size`. -/
abbrev dataSize : ℕ := F.tagExtra + F.controlDataSize + 8

/-- `interface_width`: eight bits less than the data flits of a word have. -/
@[irreducible] def wordSize : ℕ := F.interfaceWords * F.dataSize - 8

/-- `frame_size`, counted in data flits. -/
def frameCounter : FrameCounter :=
  .ofSize (F.frameWords * F.interfaceWords) (Nat.mul_pos F.frameWords_pos F.interfaceWords_pos)

/-- The data flits of a word, counted. -/
def fragmentCounter : FrameCounter := .ofSize F.interfaceWords F.interfaceWords_pos

/-- `total_credits`. -/
def totalCredits : ℕ := F.frameCounter.size * maxFrames

end Format

/-- A data flit's payload. -/
abbrev Data : Type := BitVec F.dataSize

/-- A flit on the link: `width` bits. -/
abbrev Raw : Type := BitVec (F.tagExtra + 1 + F.controlDataSize + 8)

/-- A word of the user interface. -/
abbrev Word : Type := BitVec F.wordSize

variable {F}

theorem wordSize_add : F.wordSize + 8 = F.interfaceWords * F.dataSize := by
  have hle : 1 * F.dataSize ≤ F.interfaceWords * F.dataSize :=
    Nat.mul_le_mul_right _ F.interfaceWords_pos
  have : 8 ≤ F.dataSize := Nat.le_add_left _ _
  rw [Format.wordSize]
  omega

/-- A word with room for the checksum, as `crossDomain` gives it to the marshaller. -/
def pad (w : Word F) : BitVec (F.interfaceWords * F.dataSize) := (w ++ (0 : BitVec 8)).cast wordSize_add

/-- A word without its checksum, as `rxDone` takes it from the demarshaller. -/
def unpad (x : BitVec (F.interfaceWords * F.dataSize)) : Word F := x.extractLsb' 8 _

/-! ### Flits -/

/-- The checksum of 64 bits. -/
def doHash (initializer : BitVec 8) (bitsIn : BitVec 64) : BitVec 8 :=
  Crc.hash 0x183 initializer bitsIn

/-- The tag of a payload flit. -/
def payload : BitVec 1 := 0b0

/-- A data flit before the checksum is mixed in. -/
def fragmentData (d : Data F) : Raw F := (payload ++ d).cast (by simp only [Format.dataSize]; omega)

/-- A control flit before the checksum is mixed in. -/
def controlData (tag : BitVec (F.tagExtra + 1)) (value : ℕ) : Raw F :=
  tag ++ BitVec.ofNat F.controlDataSize value ++ (0 : BitVec 8)

/-- What `sendData` sends: the flit with its checksum mixed in, or without. -/
def mix (mixHash : Bool) (hash : BitVec 8) (data : Raw F) : Raw F :=
  data ||| if mixHash then hash.setWidth _ else 0

/-- The checksum that `sendData` computes. -/
def hashTX (initial : BitVec 8) (data : Raw F) : BitVec 8 := doHash initial (data.setWidth 64)

/-- A data flit as it is sent; the last one of a word carries the checksum. -/
def packFragment (parityTX : BitVec 8) (mixHash : Bool) (d : Data F) : Raw F :=
  mix mixHash (hashTX parityTX (fragmentData d)) (fragmentData d)

/-- A control flit as it is sent. -/
def packControl (tag : BitVec (F.tagExtra + 1)) (value : ℕ) : Raw F :=
  mix true (hashTX 0 (controlData tag value)) (controlData tag value)

/-- `ctrl`. -/
def ctrlOf (raw : Raw F) : BitVec 1 := raw.extractLsb' (F.tagExtra + F.controlDataSize + 8) 1

/-- `data`. -/
def dataOf (raw : Raw F) : Data F := raw.extractLsb' 0 _

/-- `ctrlHeader`. -/
def tagOf (raw : Raw F) : BitVec (F.tagExtra + 1) := raw.extractLsb' (F.controlDataSize + 8) _

/-- `ctrlPayload`. -/
def controlOf (raw : Raw F) : BitVec F.controlDataSize := raw.extractLsb' 8 _

/-- `hashExpected`. -/
def hashOf (raw : Raw F) : BitVec 8 := raw.extractLsb' 0 8

/-- The sequence number of a header or an acknowledgement: `truncate(ctrlPayload)`. -/
def sequenceOf (raw : Raw F) : ℕ := (controlOf raw).toNat % sequenceNumbers

/-- The kind of a flit: `isPayload`, `isHeader`, or anything else. -/
def kind (raw : Raw F) : Kind :=
  if ctrlOf raw = payload then .payload else if tagOf raw = F.header then .header else .control

/-! ### The endpoint -/

variable (F) in
/-- The registers and queues that both drivers have. -/
structure Core where
  /-- The transmit queues and registers that the reliable drivers share. -/
  tx : Sender (Data F)
  /-- `serdesTxfifo`: words from the user. -/
  serdesTxfifo : List (Word F)
  /-- `marshaller`: the data flits left of a word. -/
  marshaller : List (Data F)
  /-- `parityTX`: the checksum of the last chained flit sent. -/
  parityTX : BitVec 8
  /-- `fragmentNumberTX`: the position in the word being sent. -/
  fragmentNumberTX : ℕ
  /-- `ackSequenceNumberTX`: acknowledgements to send. -/
  ackSequenceNumberTX : List ℕ
  /-- `serdesInfifo`: flits received and not examined. -/
  serdesInfifo : List (Flit (Raw F))
  /-- `frameErrorRX`: nothing is accepted before the next header. -/
  frameErrorRX : Bool
  /-- `framePositionRX`: data flits accepted of the frame that is not complete. -/
  framePositionRX : ℕ
  /-- `provisionalFramePositionRX`: the position in the frame being received. -/
  provisionalFramePositionRX : ℕ
  /-- `provisionalSequenceNumberRX`: the frame being received. -/
  provisionalSequenceNumberRX : ℕ
  /-- `sequenceNumberRX`: the frame that is not complete. -/
  sequenceNumberRX : ℕ
  /-- `fragmentNumberRX`: the position in the group being received. -/
  fragmentNumberRX : ℕ
  /-- `parityRX`: the checksum of the last chained flit received. -/
  parityRX : BitVec 8
  /-- `demarshaller`: the data flits of an incomplete word, or of one not dequeued. -/
  demarshaller : List (Data F)
  /-- `serdesRxfifo`: words for the user. -/
  serdesRxfifo : List (Word F)
  /-- History: the words the user gave. -/
  given : List (Word F)
  /-- History: the words put into `serdesRxfifo`. -/
  enqueued : List (Word F)

namespace Core

variable (F) in
/-- The endpoint after reset. -/
def reset : Core F where
  tx := .reset
  serdesTxfifo := []
  marshaller := []
  parityTX := 0
  fragmentNumberTX := 0
  ackSequenceNumberTX := []
  serdesInfifo := []
  frameErrorRX := true
  framePositionRX := 0
  provisionalFramePositionRX := 0
  provisionalSequenceNumberRX := 0
  sequenceNumberRX := 0
  fragmentNumberRX := 0
  parityRX := 0
  demarshaller := []
  serdesRxfifo := []
  given := []
  enqueued := []

/-- `rule timerCount`. -/
def timerCount (e : Core F) : Core F := { e with tx := e.tx.timerCount }

/-- The user's `write`. -/
def write (w : Word F) (e : Core F) : Option (Core F) :=
  if e.serdesTxfifo.length < 8 then
    some { e with serdesTxfifo := e.serdesTxfifo ++ [w], given := e.given ++ [w] }
  else none

/-- `rule crossDomain`. -/
def crossDomain (e : Core F) : Option (Core F) :=
  match e.serdesTxfifo, e.marshaller with
  | w :: rest, [] =>
    some { e with serdesTxfifo := rest, marshaller := Marshal.split F.interfaceWords (pad w) }
  | _, _ => none

/-- `rule sequenceStuffer`. -/
def sequenceStuffer (e : Core F) : Option (Core F) :=
  e.tx.sequenceStuffer.map fun tx => { e with tx := tx }

/-- `rule passRewind`. -/
def passRewind (e : Core F) : Option (Core F) :=
  match e.marshaller with
  | [] => none
  | d :: rest =>
    (e.tx.passRewind F.frameCounter d).map fun tx => { e with tx := tx, marshaller := rest }

/-- The body of `rule txHeader`. -/
def txHeader (e : Core F) : Option (Core F × Raw F) :=
  e.tx.txHeader.map fun (tx, seq) =>
    ({ e with tx := tx, fragmentNumberTX := 0, parityTX := hashTX 0 (controlData F.header seq) },
      packControl F.header seq)

/-- The body of `rule txACK`. -/
def txACK (e : Core F) : Option (Core F × Raw F) :=
  match e.ackSequenceNumberTX with
  | a :: rest => some ({ e with ackSequenceNumberTX := rest }, packControl F.ack a)
  | [] => none

/-- `rule txSend`. -/
def txSend (e : Core F) : Option (Core F × Raw F) :=
  let mixHash := F.fragmentCounter.isLast e.fragmentNumberTX
  (e.tx.txSend F.frameCounter).map fun (tx, d) =>
    ({ e with
        tx := tx
        fragmentNumberTX := if mixHash then 0 else F.fragmentCounter.succ e.fragmentNumberTX
        parityTX := hashTX e.parityTX (fragmentData d) },
      packFragment e.parityTX mixHash d)

/-- `rule timeout`. The difference is an unsigned 32-bit number, of which `abs` is the identity. -/
def timeout (e : Core F) : Option (Core F) :=
  match e.tx.frameTimeout with
  | [] => none
  | start :: _ =>
    if F.timeoutThreshold < (BitVec.ofNat 32 e.tx.timer - BitVec.ofNat 32 start).toNat then
      some { e with tx := e.tx.timeout }
    else none

/-- `rule handleAck`. -/
def handleAck (e : Core F) : Option (Core F) :=
  (e.tx.handleAck F.frameCounter).map fun tx => { e with tx := tx }

/-- `rule dropAck`. -/
def dropAck (e : Core F) : Option (Core F) := e.tx.dropAck.map fun tx => { e with tx := tx }

/-- `rule rxIntake`. -/
def rxIntake (x : Flit (Raw F)) (e : Core F) : Option (Core F) :=
  if e.serdesInfifo.length < F.totalCredits then
    some { e with serdesInfifo := e.serdesInfifo ++ [x] }
  else none

/-- `rule rxDone`. -/
def rxDone (e : Core F) : Option (Core F) :=
  if e.demarshaller.length = F.interfaceWords ∧ e.serdesRxfifo.length < 8 then
    let w := unpad (Marshal.join F.interfaceWords e.demarshaller)
    some { e with
      demarshaller := []
      serdesRxfifo := e.serdesRxfifo ++ [w]
      enqueued := e.enqueued ++ [w] }
  else none

/-- The user's `deq`. -/
def deq (e : Core F) : Option (Core F) :=
  match e.serdesRxfifo with
  | [] => none
  | _ :: rest => some { e with serdesRxfifo := rest }

/-- A rule that sends nothing. -/
def quiet (r : Option (Core F)) : Option (Core F × Option (Raw F)) := r.map (·, none)

/-- A rule that sends a flit. -/
def send (r : Option (Core F × Raw F)) : Option (Core F × Option (Raw F)) :=
  r.map fun (e, f) => (e, some f)

/-! ### Parts of the receive rule -/

/-- Whether a payload flit is the one the receiver waits for. -/
def fresh (e : Core F) : Bool :=
  e.provisionalFramePositionRX == e.framePositionRX &&
    e.provisionalSequenceNumberRX == e.sequenceNumberRX

/-- Whether a payload flit completes its group. -/
def endsGroup (e : Core F) : Bool := F.fragmentCounter.isLast e.fragmentNumberRX

/-- `hashRX`. -/
def hashRX (e : Core F) (raw : Raw F) : BitVec 8 :=
  doHash (if ctrlOf raw = payload then e.parityRX else 0) (raw.setWidth 64)

/-- `notCorrupt`: the checksum is looked at only at the end of a group. -/
def notCorrupt (e : Core F) (x : Flit (Raw F)) : Bool :=
  (e.hashRX x.raw == 0 || (ctrlOf x.raw == payload && !e.endsGroup)) && !x.softErr

/-- Whether the checksum of a flit is right and something is accepted for it: a group without an
error in its frame, or an acknowledgement. -/
def passes (e : Core F) (x : Flit (Raw F)) : Bool :=
  e.hashRX x.raw == 0 && !x.softErr &&
    match kind x.raw with
    | .payload => e.endsGroup && !e.frameErrorRX
    | .header => false
    | .control => tagOf x.raw == F.ack

/-- The position in the frame after a payload flit. -/
def nextPosition (e : Core F) : Core F :=
  { e with provisionalFramePositionRX := F.frameCounter.succ e.provisionalFramePositionRX }

/-- The position in the group, and the checksum with it, after a payload flit. -/
def nextFragment (x : Flit (Raw F)) (e : Core F) : Core F :=
  { e with
    fragmentNumberRX := if e.endsGroup then 0 else F.fragmentCounter.succ e.fragmentNumberRX
    parityRX := if e.endsGroup then hashOf x.raw else e.hashRX x.raw }

/-- A new data flit goes to the demarshaller. -/
def enqFragment (data : Data F) (e : Core F) : Option (Core F) :=
  if e.demarshaller.length < F.interfaceWords then
    let complete := F.frameCounter.isLast e.framePositionRX
    some { e with
      demarshaller := e.demarshaller ++ [data]
      frameErrorRX := if complete then true else e.frameErrorRX
      sequenceNumberRX :=
        if complete then (e.sequenceNumberRX + 1) % sequenceNumbers else e.sequenceNumberRX
      framePositionRX := if complete then 0 else F.frameCounter.succ e.framePositionRX }
  else none

/-- An acknowledgement is queued. -/
def enqAck (seq : ℕ) (e : Core F) : Option (Core F) :=
  if e.ackSequenceNumberTX.length < maxFrames then
    some { e with ackSequenceNumberTX := e.ackSequenceNumberTX ++ [seq] }
  else none

/-- A payload flit without error: `e` is the state that the rule reads, `e'` the one it has written
so far. -/
def acceptFragment (data : Data F) (e e' : Core F) : Option (Core F) :=
  (if e.fresh then e'.enqFragment data else some e').bind fun e₁ =>
    if F.frameCounter.isLast e.provisionalFramePositionRX then
      e₁.enqAck e.provisionalSequenceNumberRX
    else some e₁

/-- The frame position without the data flits of the group. -/
def rollBackPosition (e : Core F) : ℕ :=
  (e.framePositionRX + 2 ^ F.frameCounter.width - e.fragmentNumberRX) % 2 ^ F.frameCounter.width

/-- What every header does. -/
def newFrame (x : Flit (Raw F)) (frameErrorNext : Bool) (e : Core F) : Core F :=
  { e with
    provisionalFramePositionRX := 0
    frameErrorRX := frameErrorNext
    provisionalSequenceNumberRX := sequenceOf x.raw
    fragmentNumberRX := 0
    parityRX := hashOf x.raw }

/-- An acknowledgement, if its checksum is right. -/
def rxAck (x : Flit (Raw F)) (e : Core F) : Option (Core F) :=
  if e.notCorrupt x then
    if e.tx.ackRX.length < F.ackCapacity then
      some { e with tx := { e.tx with ackRX := e.tx.ackRX ++ [sequenceOf x.raw] } }
    else none
  else some e

/-! ### What these do -/

variable {e e' r : Core F}

theorem rxIntake_cases {x : Flit (Raw F)} (h : e.rxIntake x = some e') :
    e' = { e with serdesInfifo := e.serdesInfifo ++ [x] } := by
  rw [rxIntake] at h
  split at h
  · exact (Option.some.inj h).symm
  · cases h

theorem txACK_cases {f : Raw F} (h : e.txACK = some (e', f)) :
    ∃ a rest, e.ackSequenceNumberTX = a :: rest ∧ f = packControl F.ack a ∧
      e' = { e with ackSequenceNumberTX := rest } := by
  rw [txACK] at h
  split at h
  · next a rest ha =>
    obtain ⟨rfl, rfl⟩ := Prod.mk.inj (Option.some.inj h)
    exact ⟨a, rest, ha, rfl, rfl⟩
  · cases h

theorem rxDone_cases (h : e.rxDone = some e') :
    e.demarshaller.length = F.interfaceWords ∧
      e' = { e with
        demarshaller := []
        serdesRxfifo := e.serdesRxfifo ++ [unpad (Marshal.join F.interfaceWords e.demarshaller)]
        enqueued := e.enqueued ++ [unpad (Marshal.join F.interfaceWords e.demarshaller)] } := by
  rw [rxDone] at h
  split at h
  · next hc => exact ⟨hc.1, (Option.some.inj h).symm⟩
  · cases h

theorem enqFragment_cases {data : Data F} (h : e.enqFragment data = some e') :
    e.demarshaller.length < F.interfaceWords ∧ e' = { e with
      demarshaller := e.demarshaller ++ [data]
      frameErrorRX := F.frameCounter.isLast e.framePositionRX || e.frameErrorRX
      sequenceNumberRX :=
        if F.frameCounter.isLast e.framePositionRX then (e.sequenceNumberRX + 1) % sequenceNumbers
        else e.sequenceNumberRX
      framePositionRX :=
        if F.frameCounter.isLast e.framePositionRX then 0
        else F.frameCounter.succ e.framePositionRX } := by
  rw [enqFragment] at h
  split at h
  · next hlt =>
    refine ⟨hlt, ?_⟩
    rw [← Option.some.inj h]
    cases F.frameCounter.isLast e.framePositionRX <;> rfl
  · cases h

theorem enqAck_cases {seq : ℕ} (h : e.enqAck seq = some e') :
    e' = { e with ackSequenceNumberTX := e.ackSequenceNumberTX ++ [seq] } := by
  rw [enqAck] at h
  split at h
  · exact (Option.some.inj h).symm
  · cases h

/-- The transmit side, the flits received and the user's words are the same. -/
structure SameTransmit (e e' : Core F) : Prop where
  tx : e'.tx = e.tx
  serdesTxfifo : e'.serdesTxfifo = e.serdesTxfifo
  marshaller : e'.marshaller = e.marshaller
  fragmentNumberTX : e'.fragmentNumberTX = e.fragmentNumberTX
  serdesInfifo : e'.serdesInfifo = e.serdesInfifo
  given : e'.given = e.given

/-- What accepting a payload flit does to the receive side. -/
structure Accepts (e : Core F) (x : Flit (Raw F)) (r : Core F) : Prop where
  provisionalFramePositionRX :
    r.provisionalFramePositionRX = F.frameCounter.succ e.provisionalFramePositionRX
  provisionalSequenceNumberRX : r.provisionalSequenceNumberRX = e.provisionalSequenceNumberRX
  fragmentNumberRX :
    r.fragmentNumberRX = if e.endsGroup then 0 else F.fragmentCounter.succ e.fragmentNumberRX
  enqueued : r.enqueued = e.enqueued
  /-- The last flit of a frame is acknowledged, new or repeated. -/
  ackSequenceNumberTX : r.ackSequenceNumberTX =
    if F.frameCounter.isLast e.provisionalFramePositionRX then
      e.ackSequenceNumberTX ++ [e.provisionalSequenceNumberRX]
    else e.ackSequenceNumberTX
  /-- A new flit goes to the demarshaller. -/
  new : e.fresh = true → e.demarshaller.length < F.interfaceWords ∧
    r.demarshaller = e.demarshaller ++ [dataOf x.raw]
  /-- The last new flit of a frame completes it. -/
  last : e.fresh = true → F.frameCounter.isLast e.provisionalFramePositionRX = true →
    r.frameErrorRX = true ∧ r.sequenceNumberRX = (e.sequenceNumberRX + 1) % sequenceNumbers ∧
      r.framePositionRX = 0
  /-- Any other new flit advances the position. -/
  inside : e.fresh = true → F.frameCounter.isLast e.provisionalFramePositionRX = false →
    r.frameErrorRX = e.frameErrorRX ∧ r.sequenceNumberRX = e.sequenceNumberRX ∧
      r.framePositionRX = F.frameCounter.succ e.framePositionRX
  /-- A repeated flit goes nowhere. -/
  old : e.fresh = false → r.demarshaller = e.demarshaller ∧ r.frameErrorRX = e.frameErrorRX ∧
    r.sequenceNumberRX = e.sequenceNumberRX ∧ r.framePositionRX = e.framePositionRX

theorem fresh_position (h : e.fresh = true) :
    e.provisionalFramePositionRX = e.framePositionRX := by
  rw [fresh, Bool.and_eq_true, beq_iff_eq] at h
  exact h.1

/-- A payload flit without error goes to the demarshaller if it is new, and is acknowledged if it
is the last of its frame. -/
theorem acceptFragment_spec {x : Flit (Raw F)}
    (h : acceptFragment (dataOf x.raw) e (e.nextPosition.nextFragment x) = some r) :
    SameTransmit e r ∧ Accepts e x r := by
  obtain ⟨e₁, he₁, hlast⟩ := Option.bind_eq_some_iff.mp h
  cases hf : e.fresh with
  | false =>
    rw [hf] at he₁
    obtain rfl : e.nextPosition.nextFragment x = e₁ := Option.some.inj he₁
    cases hl : F.frameCounter.isLast e.provisionalFramePositionRX with
    | false =>
      rw [hl] at hlast
      obtain rfl := Option.some.inj hlast
      constructor <;> constructor <;> first | rfl | simp [nextPosition, nextFragment, hf, hl]
    | true =>
      rw [hl] at hlast
      obtain rfl := enqAck_cases hlast
      constructor <;> constructor <;> first | rfl | simp [nextPosition, nextFragment, hf, hl]
  | true =>
    rw [hf] at he₁
    obtain ⟨hlt, rfl⟩ := enqFragment_cases he₁
    have hroom : e.demarshaller.length < F.interfaceWords := hlt
    have hpos := fresh_position hf
    cases hl : F.frameCounter.isLast e.provisionalFramePositionRX with
    | false =>
      rw [hl] at hlast
      obtain rfl := Option.some.inj hlast
      rw [hpos] at hl
      constructor <;> constructor <;>
        first | rfl | simp [nextPosition, nextFragment, hf, hl, hpos, hroom]
    | true =>
      rw [hl] at hlast
      obtain rfl := enqAck_cases hlast
      rw [hpos] at hl
      constructor <;> constructor <;>
        first | rfl | simp [nextPosition, nextFragment, hf, hl, hpos, hroom]

end Core

variable (F) in
/-- The rules that the drivers have in common, and the methods of the user. -/
inductive SharedRule
  | timerCount
  | sequenceStuffer
  | passRewind
  | crossDomain
  | timeout
  | txSend
  | handleAck
  | dropAck
  | rxDone
  | write (w : Word F)
  | deq

/-- A step of one of these rules, and the flit sent if one is. -/
def SharedRule.rule : SharedRule F → Core F → Option (Core F × Option (Raw F))
  | .timerCount, e => Core.quiet (some e.timerCount)
  | .sequenceStuffer, e => Core.quiet e.sequenceStuffer
  | .passRewind, e => Core.quiet e.passRewind
  | .crossDomain, e => Core.quiet e.crossDomain
  | .timeout, e => Core.quiet e.timeout
  | .txSend, e => Core.send e.txSend
  | .handleAck, e => Core.quiet e.handleAck
  | .dropAck, e => Core.quiet e.dropAck
  | .rxDone, e => Core.quiet e.rxDone
  | .write w, e => Core.quiet (e.write w)
  | .deq, e => Core.quiet e.deq

/-! ### Words -/

theorem pad_unpad (w : Word F) : unpad (pad w) = w := by
  rw [unpad, pad, BitVec.extractLsb'_cast, BitVec.extractLsb'_append_eq_of_le (Nat.le_refl _),
    Nat.sub_self, BitVec.extractLsb'_eq_self]

theorem unpad_ofNat {m n : ℕ} (h : m / 2 ^ 8 = n / 2 ^ 8) :
    unpad (F := F) (BitVec.ofNat _ m) = unpad (BitVec.ofNat _ n) := by
  have hvalue : ∀ k : ℕ, (unpad (F := F) (BitVec.ofNat _ k)).toNat =
      k / 2 ^ 8 % 2 ^ F.wordSize := by
    intro k
    have hpow : 2 ^ (F.interfaceWords * F.dataSize) = 2 ^ 8 * 2 ^ F.wordSize := by
      rw [← Nat.pow_add, Nat.add_comm, wordSize_add]
    rw [unpad, BitVec.extractLsb'_toNat, BitVec.toNat_ofNat, Nat.shiftRight_eq_div_pow, hpow,
      Nat.mod_mul_right_div_self, Nat.mod_mod]
  rw [← BitVec.toNat_inj, hvalue, hvalue, h]

/-- A checksum mixed into the last data flit of a word does not change the word. -/
theorem unpad_join_mix (l : List (Data F)) (d : Data F) (mixHash : Bool) (hash : BitVec 8) :
    unpad (Marshal.join F.interfaceWords (l ++ [d ||| if mixHash then hash.setWidth _ else 0])) =
      unpad (Marshal.join F.interfaceWords (l ++ [d])) := by
  have hlow : ∀ x : Data F, (d ||| x).toNat / 2 ^ 8 = (d.toNat / 2 ^ 8 ||| x.toNat / 2 ^ 8) := by
    intro x
    rw [BitVec.toNat_or, ← Nat.shiftRight_eq_div_pow, Nat.shiftRight_or_distrib,
      Nat.shiftRight_eq_div_pow, Nat.shiftRight_eq_div_pow]
  have hmix : (d ||| if mixHash then hash.setWidth _ else 0 : Data F).toNat / 2 ^ 8 =
      d.toNat / 2 ^ 8 := by
    rw [hlow]
    cases mixHash
    · simp
    · have hlt : (hash.setWidth F.dataSize).toNat < 2 ^ 8 :=
        Nat.lt_of_le_of_lt (by rw [BitVec.toNat_setWidth]; exact Nat.mod_le _ _) hash.isLt
      rw [if_pos rfl, Nat.div_eq_of_lt hlt, Nat.or_zero]
  have hcat : ∀ x : Data F, Marshal.joinNat (l ++ [x]) / 2 ^ 8 =
      Marshal.joinNat l * 2 ^ (F.tagExtra + F.controlDataSize) + x.toNat / 2 ^ 8 := by
    intro x
    have hpow : 2 ^ F.dataSize = 2 ^ (F.tagExtra + F.controlDataSize) * 2 ^ 8 := by
      rw [← Nat.pow_add]
    simp only [Marshal.joinNat_append, Marshal.joinNat, List.length_singleton, Nat.one_mul,
      List.length_nil, Nat.zero_mul, Nat.pow_zero, Nat.mul_one, Nat.add_zero]
    rw [hpow, ← Nat.mul_assoc, Nat.add_comm, Nat.add_mul_div_right _ _ (by decide), Nat.add_comm]
  rw [Marshal.join, Marshal.join]
  exact unpad_ofNat (by rw [hcat, hcat, hmix])

/-! ### What a packed flit is read as -/

/-- The checksum reaches only the low eight bits. -/
theorem extract_mix (mixHash : Bool) (hash : BitVec 8) (data : Raw F) {start len : ℕ}
    (h : 8 ≤ start) : (mix mixHash hash data).extractLsb' start len = data.extractLsb' start len := by
  have hhigh : (if mixHash then hash.setWidth _ else 0 : Raw F).extractLsb' start len = 0 := by
    ext i hi
    have hzero : hash.getLsbD (start + i) = false := BitVec.getLsbD_of_ge _ _ (by omega)
    cases mixHash <;> simp [hzero]
  rw [mix, BitVec.extractLsb'_or, hhigh]
  exact BitVec.or_zero

@[simp] theorem ctrlOf_packFragment (parity : BitVec 8) (mixHash : Bool) (d : Data F) :
    ctrlOf (packFragment parity mixHash d) = payload := by
  rw [ctrlOf, packFragment, extract_mix _ _ _ (by omega), fragmentData, BitVec.extractLsb'_cast,
    BitVec.extractLsb'_append_eq_of_le (Nat.le_refl _)]
  simp

/-- The data of a fragment, and the checksum with it where it was mixed in. -/
theorem dataOf_packFragment (parity : BitVec 8) (mixHash : Bool) (d : Data F) :
    dataOf (packFragment parity mixHash d) =
      d ||| if mixHash then (hashTX parity (fragmentData d)).setWidth _ else 0 := by
  have hlow : (fragmentData d).extractLsb' 0 F.dataSize = d := by
    rw [fragmentData, BitVec.extractLsb'_cast, BitVec.extractLsb'_append_eq_of_add_le (by omega),
      BitVec.extractLsb'_eq_self]
  have hle : F.dataSize ≤ F.tagExtra + 1 + F.controlDataSize + 8 := by
    simp only [Format.dataSize]
    omega
  have hhash : ∀ hash : BitVec 8,
      (if mixHash then hash.setWidth _ else 0 : Raw F).extractLsb' 0 F.dataSize =
        if mixHash then hash.setWidth _ else 0 := by
    intro hash
    cases mixHash
    · simp
    · simp only [if_true]
      rw [← BitVec.setWidth_eq_extractLsb' hle, BitVec.setWidth_setWidth_of_le _ hle]
  rw [packFragment, mix, dataOf, BitVec.extractLsb'_or, hlow, hhash]

theorem tagOf_packControl (tag : BitVec (F.tagExtra + 1)) (value : ℕ) :
    tagOf (packControl tag value) = tag := by
  rw [tagOf, packControl, extract_mix _ _ _ (by omega), controlData,
    BitVec.extractLsb'_append_eq_of_le (by omega), BitVec.extractLsb'_append_eq_of_le (by omega)]
  simp

theorem ctrlOf_packControl (tag : BitVec (F.tagExtra + 1)) (value : ℕ) :
    ctrlOf (packControl tag value) = tag.extractLsb' F.tagExtra 1 := by
  rw [ctrlOf, packControl, extract_mix _ _ _ (by omega), controlData,
    BitVec.extractLsb'_append_eq_of_le (by omega), BitVec.extractLsb'_append_eq_of_le (by omega)]
  congr 1
  omega

theorem sequenceOf_packControl (tag : BitVec (F.tagExtra + 1)) {value : ℕ} (h : value < 8) :
    sequenceOf (packControl tag value) = value := by
  have hvalue : controlOf (packControl tag value) = BitVec.ofNat F.controlDataSize value := by
    rw [controlOf, packControl, extract_mix _ _ _ (Nat.le_refl _), controlData,
      BitVec.extractLsb'_append_eq_of_le (Nat.le_refl _), Nat.sub_self,
      BitVec.extractLsb'_append_eq_of_add_le (by omega), BitVec.extractLsb'_eq_self]
  have hpow : 8 ≤ 2 ^ F.controlDataSize :=
    Nat.pow_le_pow_right (n := 2) (by decide) F.controlDataSize_ge
  rw [sequenceOf, hvalue, BitVec.toNat_ofNat, Nat.mod_eq_of_lt (Nat.lt_of_lt_of_le h hpow)]
  exact Nat.mod_eq_of_lt h

theorem kind_packFragment (parity : BitVec 8) (mixHash : Bool) (d : Data F) :
    kind (packFragment parity mixHash d) = .payload := by
  simp [kind]

theorem kind_header (value : ℕ) : kind (packControl F.header value) = .header := by
  simp [kind, ctrlOf_packControl, tagOf_packControl, F.header_msb, payload]

/-- A control flit that is no header is outside the chain. -/
theorem kind_control {tag : BitVec (F.tagExtra + 1)} (hmsb : tag.extractLsb' F.tagExtra 1 = 1)
    (hne : tag ≠ F.header) (value : ℕ) : kind (packControl tag value) = .control := by
  simp [kind, ctrlOf_packControl, tagOf_packControl, hmsb, hne, payload]

end Grouped

end Aurora

end LeapPlatforms
