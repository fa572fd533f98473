import LeapPlatforms.Aurora.ReliableSender
import LeapPlatforms.Aurora.SequenceWindow
import LeapPlatforms.Foundation.LossyLink
import LeapPlatforms.Foundation.Marshal

/-!
# The reliable Aurora driver

`mkAURORA_FLOWCONTROL` of `aurora-reliable.bsv`: every flit carries a checksum, and the checksum of
a payload flit is salted with that of the flit before it. One definition for each rule, under the
rule's name, over a record with the registers and queues of the module.

The rules that fill a wire for `sendData` send their flit themselves: `sendData` fires in the same
cycle, whenever one of them does. The clock-domain crossing between `serdesTxfifo` and the
marshaller is a queue. Left out are the counters that nothing but a debug method reads, the
signals to the debug port, and the rules `drop`, `fullDeath` and `sendUnderflow`, which only
observe.

## Main definitions

* `Reliable.Params` — what the module is instantiated with
* `Reliable.packHeader`, `packAck`, `packPayload` and the fields `ctrlOf`, `dataOf`, `hashOf` of a
  raw fragment
* `Reliable.Endpoint`, `Reliable.Rule`, `Reliable.rule`
* `Reliable.machine`

## Main results

* `kind_packHeader` and its companions — what a packed flit is read as
-/

namespace LeapPlatforms

namespace Aurora

open LossyLink (Flit Kind Machine)

/-- The timeout test of the reliable drivers, on 32-bit signed cycle counts. -/
def timedOut (threshold : ℤ) (timer start : ℕ) : Bool :=
  threshold < (BitVec.ofNat 32 timer - BitVec.ofNat 32 start).abs.toInt

namespace Reliable

/-- The parameters of the module. -/
structure Params where
  /-- `control_data_size`: the bits of a control flit without its tag and its checksum. -/
  controlDataSize : ℕ
  /-- A sequence number fits a control flit. -/
  controlDataSize_ge : 3 ≤ controlDataSize
  /-- `interface_words`: data flits in a word of the user interface. -/
  interfaceWords : ℕ
  /-- A word is not empty. -/
  interfaceWords_pos : 0 < interfaceWords
  /-- `REQUIRE_CC`: whether clock compensation is handled outside the physical driver. -/
  requireCC : Bool
  /-- `crcgen.nextChunk`: the checksum of a chunk, from an initial value. -/
  nextChunk : BitVec 8 → BitVec (8 + (2 + controlDataSize)) → BitVec 8

variable (P : Params)

/-- A data flit's payload: `data_size` bits. -/
abbrev Data : Type := BitVec (P.controlDataSize + 1)

/-- A flit without its checksum. -/
abbrev TopHalf : Type := BitVec (2 + P.controlDataSize)

/-- A flit on the link: `width` bits. -/
abbrev Raw : Type := BitVec (2 + P.controlDataSize + 8)

/-- A word of the user interface: `interface_width` bits. -/
abbrev Word : Type := BitVec (P.interfaceWords * (P.controlDataSize + 1))

/-- `frame_size` flits are counted modulo 128, and the end of a frame is the wrap to zero. -/
def frameCounter : FrameCounter where
  size := 128
  width := 7
  mark := 0
  size_pos := by decide
  size_le := by decide
  mark_spec := by omega

/-- `total_credits`. -/
def totalCredits : ℕ := frameCounter.size * maxFrames

/-- `timeoutThreshold`. -/
def timeoutThreshold : ℤ := 1000 * totalCredits

/-- `crcInit`. -/
def crcInit : BitVec 8 := 1

/-! ### Flits -/

/-- The tag of a payload flit. -/
def payload : BitVec 1 := 0b0

/-- The tag of a frame header. -/
def header : BitVec 2 := 0b10

/-- The tag of an acknowledgement. -/
def ack : BitVec 2 := 0b11

variable {P}

/-- A control flit's upper part: a tag and a sequence number. -/
def controlTop (tag : BitVec 2) (seq : ℕ) : TopHalf P := tag ++ BitVec.ofNat P.controlDataSize seq

/-- A payload flit's upper part. -/
def payloadTop (d : Data P) : TopHalf P := (payload ++ d).cast (by omega)

/-- The checksum of an upper part. -/
def checksum (salt : BitVec 8) (top : TopHalf P) : BitVec 8 := P.nextChunk crcInit (salt ++ top)

/-- The flit that `sendData` sends for an upper part. -/
def pack (salt : BitVec 8) (top : TopHalf P) : Raw P := top ++ checksum salt top

/-- `ctrl`. -/
def ctrlOf (raw : Raw P) : BitVec 1 := raw.extractLsb' (P.controlDataSize + 9) 1

/-- `data`. -/
def dataOf (raw : Raw P) : Data P := raw.extractLsb' 8 (P.controlDataSize + 1)

/-- `hashExpected`. -/
def hashOf (raw : Raw P) : BitVec 8 := raw.extractLsb' 0 8

/-- The first two bits, which tell a header from an acknowledgement. -/
def tagOf (raw : Raw P) : BitVec 2 := raw.extractLsb' (P.controlDataSize + 8) 2

/-- The sequence number of a control flit: `truncate(data)`. -/
def sequenceOf (raw : Raw P) : ℕ := (dataOf raw).toNat % sequenceNumbers

/-- The kind of a flit: `isPayload`, `isHeader`, or anything else. -/
def kind (raw : Raw P) : Kind :=
  if ctrlOf raw = payload then .payload else if tagOf raw = header then .header else .control

/-- `hashRX`. -/
def hashRX (parityRX : BitVec 8) (raw : Raw P) : BitVec 8 :=
  let hashSalt := if ctrlOf raw = payload then parityRX else 0
  P.nextChunk crcInit (hashSalt ++ (ctrlOf raw ++ dataOf raw).cast (by omega))

/-- `notCorrupt`. -/
def notCorrupt (parityRX : BitVec 8) (softErr : Bool) (raw : Raw P) : Bool :=
  hashRX parityRX raw == hashOf raw && !softErr

/-! ### The endpoint -/

variable (P) in
/-- The registers and queues of the module. -/
structure Endpoint where
  /-- The transmit queues and registers that the reliable drivers share. -/
  tx : Sender (Data P)
  /-- `ccCycles`: clock compensation cycles to wait for. -/
  ccCycles : ℕ
  /-- `serdesTxfifo`: words from the user. -/
  serdesTxfifo : List (Word P)
  /-- `marshaller`: the fragments left of a word. -/
  marshaller : List (Data P)
  /-- `parityTX`: the checksum of the last chained flit sent. -/
  parityTX : BitVec 8
  /-- `timeoutQ`: a timeout was found and not acted on. -/
  timeoutQ : Bool
  /-- `ackSequenceNumberTX`: acknowledgements to send. -/
  ackSequenceNumberTX : List ℕ
  /-- `serdesInfifo`: flits received and not examined. -/
  serdesInfifo : List (Flit (Raw P))
  /-- `frameErrorRX`: nothing is accepted before the next header. -/
  frameErrorRX : Bool
  /-- `framePositionRX`: flits accepted of the frame that is not complete. -/
  framePositionRX : ℕ
  /-- `provisionalFramePositionRX`: the position in the frame being received. -/
  provisionalFramePositionRX : ℕ
  /-- `provisionalSequenceNumberRX`: the frame being received. -/
  provisionalSequenceNumberRX : ℕ
  /-- `sequenceNumberRX`: the frame that is not complete. -/
  sequenceNumberRX : ℕ
  /-- `parityRX`: the checksum of the last chained flit received. -/
  parityRX : BitVec 8
  /-- `demarshaller`: the fragments of an incomplete word, or of one not dequeued. -/
  demarshaller : List (Data P)
  /-- `serdesRxfifo`: words for the user. -/
  serdesRxfifo : List (Word P)
  /-- History: the words the user gave. -/
  given : List (Word P)
  /-- History: the data flits handed to the demarshaller. -/
  handed : List (Data P)
  /-- History: the words put into `serdesRxfifo`. -/
  enqueued : List (Word P)

namespace Endpoint

variable (P) in
/-- The endpoint after reset. -/
def reset : Endpoint P where
  tx := .reset
  ccCycles := if P.requireCC then 7 else 0
  serdesTxfifo := []
  marshaller := []
  parityTX := 0
  timeoutQ := false
  ackSequenceNumberTX := []
  serdesInfifo := []
  frameErrorRX := true
  framePositionRX := 0
  provisionalFramePositionRX := 0
  provisionalSequenceNumberRX := 0
  sequenceNumberRX := 0
  parityRX := 0
  demarshaller := []
  serdesRxfifo := []
  given := []
  handed := []
  enqueued := []

/-- The user's `write`. -/
def write (w : Word P) (e : Endpoint P) : Option (Endpoint P) :=
  if e.serdesTxfifo.length < 8 then
    some { e with serdesTxfifo := e.serdesTxfifo ++ [w], given := e.given ++ [w] }
  else none

/-- `rule crossDomain`. -/
def crossDomain (e : Endpoint P) : Option (Endpoint P) :=
  match e.serdesTxfifo, e.marshaller with
  | w :: rest, [] =>
    some { e with serdesTxfifo := rest, marshaller := Marshal.split P.interfaceWords w }
  | _, _ => none

/-- `rule tickCC`. -/
def tickCC (e : Endpoint P) : Option (Endpoint P) :=
  if P.requireCC = true ∧ 0 < e.ccCycles then some { e with ccCycles := e.ccCycles - 1 } else none

/-- `rule sequenceStuffer`. -/
def sequenceStuffer (e : Endpoint P) : Option (Endpoint P) :=
  e.tx.sequenceStuffer.map fun tx => { e with tx := tx }

/-- `rule passRewind`. -/
def passRewind (e : Endpoint P) : Option (Endpoint P) :=
  match e.marshaller with
  | [] => none
  | d :: rest => (e.tx.passRewind frameCounter d).map fun tx => { e with tx := tx, marshaller := rest }

/-- `rule txHeader`. -/
def txHeader (e : Endpoint P) : Option (Endpoint P × Raw P) :=
  if e.ccCycles = 0 then
    e.tx.txHeader.map fun (tx, seq) =>
      ({ e with tx := tx, parityTX := checksum 0 (controlTop (P := P) header seq) },
        pack 0 (controlTop header seq))
  else none

/-- `rule txFC`. -/
def txFC (e : Endpoint P) : Option (Endpoint P × Raw P) :=
  match e.ackSequenceNumberTX with
  | a :: rest =>
    if e.ccCycles = 0 then
      some ({ e with ackSequenceNumberTX := rest }, pack 0 (controlTop ack a))
    else none
  | [] => none

/-- `rule txSend`. -/
def txSend (e : Endpoint P) : Option (Endpoint P × Raw P) :=
  (e.tx.txSend frameCounter).map fun (tx, d) =>
    ({ e with tx := tx, parityTX := checksum e.parityTX (payloadTop d) },
      pack e.parityTX (payloadTop d))

/-- `rule timeoutTest`. -/
def timeoutTest (e : Endpoint P) : Option (Endpoint P) :=
  match e.tx.frameTimeout with
  | [] => none
  | start :: _ =>
    if e.timeoutQ = false ∧ timedOut timeoutThreshold e.tx.timer start = true then
      some { e with timeoutQ := true }
    else none

/-- `rule timeout`. -/
def timeout (e : Endpoint P) : Option (Endpoint P) :=
  if e.timeoutQ then some { e with timeoutQ := false, tx := e.tx.timeout } else none

/-- `rule handleAck`. -/
def handleAck (e : Endpoint P) : Option (Endpoint P) :=
  (e.tx.handleAck frameCounter).map fun tx => { e with tx := tx }

/-- `rule dropAck`. -/
def dropAck (e : Endpoint P) : Option (Endpoint P) :=
  e.tx.dropAck.map fun tx => { e with tx := tx }

/-- `rule rxIntake`. -/
def rxIntake (x : Flit (Raw P)) (e : Endpoint P) : Option (Endpoint P) :=
  if e.serdesInfifo.length < totalCredits then
    some { e with serdesInfifo := e.serdesInfifo ++ [x] }
  else none

/-- Whether a payload flit is the one the receiver waits for. -/
def fresh (e : Endpoint P) : Bool :=
  e.provisionalFramePositionRX == e.framePositionRX &&
    e.provisionalSequenceNumberRX == e.sequenceNumberRX

/-- A new data flit goes to the demarshaller. -/
def enqData (data : Data P) (e : Endpoint P) : Option (Endpoint P) :=
  if e.demarshaller.length < P.interfaceWords then
    let complete := frameCounter.isLast e.framePositionRX
    some { e with
      demarshaller := e.demarshaller ++ [data]
      handed := e.handed ++ [data]
      frameErrorRX := if complete then true else e.frameErrorRX
      sequenceNumberRX :=
        if complete then (e.sequenceNumberRX + 1) % sequenceNumbers else e.sequenceNumberRX
      framePositionRX := frameCounter.succ e.framePositionRX }
  else none

/-- An acknowledgement is queued. -/
def enqAck (seq : ℕ) (e : Endpoint P) : Option (Endpoint P) :=
  if e.ackSequenceNumberTX.length < maxFrames then
    some { e with ackSequenceNumberTX := e.ackSequenceNumberTX ++ [seq] }
  else none

/-- `rule rxDemarsh` on a payload flit. -/
def rxPayload (ok : Bool) (hash : BitVec 8) (data : Data P) (e : Endpoint P) :
    Option (Endpoint P) :=
  let e₀ := { e with
    parityRX := hash
    provisionalFramePositionRX := frameCounter.succ e.provisionalFramePositionRX }
  if ok && !e.frameErrorRX then
    (if e.fresh then e₀.enqData data else some e₀).bind fun e₁ =>
      if frameCounter.isLast e.provisionalFramePositionRX then
        e₁.enqAck e.provisionalSequenceNumberRX
      else some e₁
  else some { e₀ with frameErrorRX := true }

/-- `rule rxDemarsh` on a header. -/
def rxHeader (ok : Bool) (hash : BitVec 8) (headerSequence : ℕ) (e : Endpoint P) : Endpoint P :=
  { e with
    provisionalFramePositionRX := 0
    frameErrorRX := futureFrame e.sequenceNumberRX headerSequence || !ok
    provisionalSequenceNumberRX := headerSequence
    parityRX := hash }

/-- `rule rxDemarsh` on an acknowledgement. -/
def rxAck (ok : Bool) (seq : ℕ) (e : Endpoint P) : Option (Endpoint P) :=
  if ok then
    if e.tx.ackRX.length < 4 then some { e with tx := { e.tx with ackRX := e.tx.ackRX ++ [seq] } }
    else none
  else some e

/-- `rule rxDemarsh`. -/
def rxDemarsh (e : Endpoint P) : Option (Endpoint P) :=
  match e.serdesInfifo with
  | [] => none
  | x :: rest =>
    let e' := { e with serdesInfifo := rest }
    let ok := notCorrupt e.parityRX x.softErr x.raw
    let hash := hashRX e.parityRX x.raw
    if ctrlOf x.raw = payload then e'.rxPayload ok hash (dataOf x.raw)
    else if tagOf x.raw = header then some (e'.rxHeader ok hash (sequenceOf x.raw))
    else if tagOf x.raw = ack then e'.rxAck ok (sequenceOf x.raw)
    else some e'

/-- `rule rxDone`. -/
def rxDone (e : Endpoint P) : Option (Endpoint P) :=
  if e.demarshaller.length = P.interfaceWords ∧ e.serdesRxfifo.length < 8 then
    some { e with
      demarshaller := []
      serdesRxfifo := e.serdesRxfifo ++ [Marshal.join P.interfaceWords e.demarshaller]
      enqueued := e.enqueued ++ [Marshal.join P.interfaceWords e.demarshaller] }
  else none

/-- The user's `deq`. -/
def deq (e : Endpoint P) : Option (Endpoint P) :=
  match e.serdesRxfifo with
  | [] => none
  | _ :: rest => some { e with serdesRxfifo := rest }

/-! ### What the receive rule does -/

variable {e e' : Endpoint P}

theorem txFC_cases {f : Raw P} (h : e.txFC = some (e', f)) :
    ∃ a rest, e.ackSequenceNumberTX = a :: rest ∧ f = pack 0 (controlTop ack a) ∧
      e' = { e with ackSequenceNumberTX := rest } := by
  rw [txFC] at h
  split at h
  · next a rest ha =>
    split at h
    · obtain ⟨rfl, rfl⟩ := Prod.mk.inj (Option.some.inj h)
      exact ⟨a, rest, ha, rfl, rfl⟩
    · cases h
  · cases h

theorem rxIntake_cases {x : Flit (Raw P)} (h : e.rxIntake x = some e') :
    e' = { e with serdesInfifo := e.serdesInfifo ++ [x] } := by
  rw [rxIntake] at h
  split at h
  · exact (Option.some.inj h).symm
  · cases h

theorem enqData_cases {data : Data P} (h : e.enqData data = some e') :
    e' = { e with
      demarshaller := e.demarshaller ++ [data]
      handed := e.handed ++ [data]
      frameErrorRX := frameCounter.isLast e.framePositionRX || e.frameErrorRX
      sequenceNumberRX :=
        if frameCounter.isLast e.framePositionRX then (e.sequenceNumberRX + 1) % sequenceNumbers
        else e.sequenceNumberRX
      framePositionRX := frameCounter.succ e.framePositionRX } := by
  rw [enqData] at h
  split at h
  · rw [← Option.some.inj h]
    cases frameCounter.isLast e.framePositionRX <;> rfl
  · cases h

theorem enqAck_cases {seq : ℕ} (h : e.enqAck seq = some e') :
    e' = { e with ackSequenceNumberTX := e.ackSequenceNumberTX ++ [seq] } := by
  rw [enqAck] at h
  split at h
  · exact (Option.some.inj h).symm
  · cases h

/-- A payload flit is either dropped, and the receiver in error, or accepted. -/
theorem rxPayload_cases {ok : Bool} {hash : BitVec 8} {data : Data P}
    (h : e.rxPayload ok hash data = some e') :
    ((ok = false ∨ e.frameErrorRX = true) ∧
      e' = { e with
        parityRX := hash
        provisionalFramePositionRX := frameCounter.succ e.provisionalFramePositionRX
        frameErrorRX := true }) ∨
    (ok = true ∧ e.frameErrorRX = false ∧
      e' = { e with
        parityRX := hash
        provisionalFramePositionRX := frameCounter.succ e.provisionalFramePositionRX
        demarshaller := if e.fresh then e.demarshaller ++ [data] else e.demarshaller
        handed := if e.fresh then e.handed ++ [data] else e.handed
        frameErrorRX := e.fresh && frameCounter.isLast e.framePositionRX
        sequenceNumberRX :=
          if e.fresh && frameCounter.isLast e.framePositionRX then
            (e.sequenceNumberRX + 1) % sequenceNumbers
          else e.sequenceNumberRX
        framePositionRX :=
          if e.fresh then frameCounter.succ e.framePositionRX else e.framePositionRX
        ackSequenceNumberTX :=
          if frameCounter.isLast e.provisionalFramePositionRX then
            e.ackSequenceNumberTX ++ [e.provisionalSequenceNumberRX]
          else e.ackSequenceNumberTX }) := by
  rw [rxPayload] at h
  split at h
  · next hc =>
    obtain ⟨hok, herr⟩ : ok = true ∧ e.frameErrorRX = false := by simpa using hc
    refine Or.inr ⟨hok, herr, ?_⟩
    obtain ⟨e₁, he₁, hlast⟩ := Option.bind_eq_some_iff.mp h
    cases hf : e.fresh <;> cases hl : frameCounter.isLast e.provisionalFramePositionRX <;>
      simp only [hf, hl, if_true, Bool.false_eq_true, if_false, Bool.true_and, Bool.false_and]
        at he₁ hlast ⊢
    · obtain rfl := Option.some.inj he₁
      rw [← Option.some.inj hlast, herr]
    · obtain rfl := Option.some.inj he₁
      rw [enqAck_cases hlast, herr]
    · obtain rfl := Option.some.inj hlast
      rw [enqData_cases he₁, herr, Bool.or_false]
    · rw [enqAck_cases hlast, enqData_cases he₁, herr, Bool.or_false]
  · next hc =>
    refine Or.inl ⟨?_, (Option.some.inj h).symm⟩
    cases ok <;> simp at hc ⊢
    exact hc

/-- The receive rule takes one flit, and does with it what its kind asks for. -/
theorem rxDemarsh_cases (h : e.rxDemarsh = some e') :
    ∃ x rest, e.serdesInfifo = x :: rest ∧
      ((kind x.raw = .payload ∧ { e with serdesInfifo := rest }.rxPayload
          (notCorrupt e.parityRX x.softErr x.raw) (hashRX e.parityRX x.raw) (dataOf x.raw) =
            some e') ∨
      (kind x.raw = .header ∧ e' = { e with serdesInfifo := rest }.rxHeader
          (notCorrupt e.parityRX x.softErr x.raw) (hashRX e.parityRX x.raw) (sequenceOf x.raw)) ∨
      (kind x.raw = .control ∧ (e' = { e with serdesInfifo := rest } ∨
        (tagOf x.raw = ack ∧ notCorrupt e.parityRX x.softErr x.raw = true ∧ e' = { e with
          serdesInfifo := rest
          tx := { e.tx with ackRX := e.tx.ackRX ++ [sequenceOf x.raw] } })))) := by
  rw [rxDemarsh] at h
  split at h
  · cases h
  · next x rest hx =>
    refine ⟨x, rest, hx, ?_⟩
    dsimp only at h
    split at h
    · next hpay => exact Or.inl ⟨by simp [kind, hpay], h⟩
    · next hpay =>
      split at h
      · next hhead =>
        exact Or.inr (Or.inl ⟨by simp [kind, hpay, hhead], (Option.some.inj h).symm⟩)
      · next hhead =>
        refine Or.inr (Or.inr ⟨by simp [kind, hpay, hhead], ?_⟩)
        split at h
        · next hack =>
          rw [rxAck] at h
          split at h
          · next hok =>
            split at h
            · exact Or.inr ⟨hack, hok, (Option.some.inj h).symm⟩
            · cases h
          · exact Or.inl (Option.some.inj h).symm
        · exact Or.inl (Option.some.inj h).symm

end Endpoint

variable (P) in
/-- The rules of the module, and the methods of its user. -/
inductive Rule
  | timerCount
  | sequenceStuffer
  | passRewind
  | tickCC
  | write (w : Word P)
  | crossDomain
  | txHeader
  | txFC
  | txSend
  | timeoutTest
  | timeout
  | handleAck
  | dropAck
  | rxDemarsh
  | rxDone
  | deq

/-- A step of the endpoint: the new state, and the flit sent if one is. -/
def rule : Rule P → Endpoint P → Option (Endpoint P × Option (Raw P))
  | .timerCount, e => some ({ e with tx := e.tx.timerCount }, none)
  | .sequenceStuffer, e => e.sequenceStuffer.map (·, none)
  | .passRewind, e => e.passRewind.map (·, none)
  | .tickCC, e => e.tickCC.map (·, none)
  | .write w, e => (e.write w).map (·, none)
  | .crossDomain, e => e.crossDomain.map (·, none)
  | .txHeader, e => e.txHeader.map fun (e', f) => (e', some f)
  | .txFC, e => e.txFC.map fun (e', f) => (e', some f)
  | .txSend, e => e.txSend.map fun (e', f) => (e', some f)
  | .timeoutTest, e => e.timeoutTest.map (·, none)
  | .timeout, e => e.timeout.map (·, none)
  | .handleAck, e => e.handleAck.map (·, none)
  | .dropAck, e => e.dropAck.map (·, none)
  | .rxDemarsh, e => e.rxDemarsh.map (·, none)
  | .rxDone, e => e.rxDone.map (·, none)
  | .deq, e => e.deq.map (·, none)

variable (P) in
/-- The driver as a machine on a link. Every flit has its own check, and that of a payload flit
counts while there is no error in the frame. -/
def machine : Machine (Endpoint P) (Rule P) (Raw P) where
  reset := .reset P
  rule := rule
  intake := Endpoint.rxIntake
  kind := kind
  examines
    | .rxDemarsh, e => e.serdesInfifo.head?
    | _, _ => none
  passes e x := notCorrupt e.parityRX x.softErr x.raw && (!e.frameErrorRX || kind x.raw != .payload)

/-! ### What a packed flit is read as -/

theorem extract_pack (salt : BitVec 8) (top : TopHalf P) {start len : ℕ} (h : 8 ≤ start) :
    (pack salt top).extractLsb' start len = top.extractLsb' (start - 8) len :=
  BitVec.extractLsb'_append_eq_of_le h

@[simp] theorem hashOf_pack (salt : BitVec 8) (top : TopHalf P) :
    hashOf (pack salt top) = checksum salt top := by
  rw [hashOf, pack, BitVec.extractLsb'_append_eq_of_add_le (Nat.le_refl _), BitVec.extractLsb'_eq_self]

@[simp] theorem ctrlOf_payload (salt : BitVec 8) (d : Data P) :
    ctrlOf (pack salt (payloadTop d)) = payload := by
  rw [ctrlOf, extract_pack _ _ (by omega), payloadTop, BitVec.extractLsb'_cast,
    BitVec.extractLsb'_append_eq_of_le (by omega)]
  simp

@[simp] theorem dataOf_payload (salt : BitVec 8) (d : Data P) :
    dataOf (pack salt (payloadTop d)) = d := by
  rw [dataOf, extract_pack _ _ (by omega), payloadTop, BitVec.extractLsb'_cast,
    BitVec.extractLsb'_append_eq_of_add_le (by omega)]
  simp

@[simp] theorem tagOf_control (salt : BitVec 8) (tag : BitVec 2) (seq : ℕ) :
    tagOf (pack (P := P) salt (controlTop tag seq)) = tag := by
  rw [tagOf, extract_pack _ _ (by omega), controlTop,
    BitVec.extractLsb'_append_eq_of_le (by omega)]
  simp

theorem ctrlOf_control (salt : BitVec 8) (tag : BitVec 2) (seq : ℕ) :
    ctrlOf (pack (P := P) salt (controlTop tag seq)) = tag.extractLsb' 1 1 := by
  rw [ctrlOf, extract_pack _ _ (by omega), controlTop,
    BitVec.extractLsb'_append_eq_of_le (by omega)]
  congr 1
  omega

theorem sequenceOf_control (salt : BitVec 8) (tag : BitVec 2) {seq : ℕ} (h : seq < 8) :
    sequenceOf (pack (P := P) salt (controlTop tag seq)) = seq := by
  have hc := P.controlDataSize_ge
  have hlow : (dataOf (pack (P := P) salt (controlTop tag seq))).extractLsb' 0 3 =
      (BitVec.ofNat P.controlDataSize seq).extractLsb' 0 3 := by
    rw [dataOf, extract_pack _ _ (Nat.le_refl _), Nat.sub_self,
      BitVec.extractLsb'_extractLsb'_of_le (by omega), controlTop,
      BitVec.extractLsb'_append_eq_of_add_le (by omega)]
  have hpow : 8 ≤ 2 ^ P.controlDataSize := Nat.pow_le_pow_right (n := 2) (by decide) hc
  have := congrArg BitVec.toNat hlow
  rw [BitVec.extractLsb'_toNat, BitVec.extractLsb'_toNat, BitVec.toNat_ofNat,
    Nat.mod_eq_of_lt (Nat.lt_of_lt_of_le h hpow), Nat.shiftRight_zero, Nat.shiftRight_zero,
    Nat.mod_eq_of_lt (a := seq) h] at this
  exact this

theorem kind_payload (salt : BitVec 8) (d : Data P) :
    kind (pack salt (payloadTop d)) = .payload := by
  simp [kind]

theorem kind_header (salt : BitVec 8) (seq : ℕ) :
    kind (pack (P := P) salt (controlTop header seq)) = .header := by
  simp [kind, ctrlOf_control, header, payload]

theorem kind_ack (salt : BitVec 8) (seq : ℕ) :
    kind (pack (P := P) salt (controlTop ack seq)) = .control := by
  simp [kind, ctrlOf_control, header, payload, ack]

end Reliable

end Aurora

end LeapPlatforms
