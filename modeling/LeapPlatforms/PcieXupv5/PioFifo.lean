import LeapPlatforms.Foundation.TransitionSystem
import Mathlib.Data.Nat.Notation

/-!
# The registers behind the PIO interface

`mkPioFifo` gives the host two windows: registers with counters of what it did, and a pair of queues
for bytes, with another pair for a display. A write to a queue that is full and a read of one that
is empty are counted as errors; the read returns a word that no byte is.

Here the transactions of the host happen at once and in their order. What the board makes of the
packets that they come in is another matter.

## Main definitions

* `PioFifo`, `PioFifo.write`, `PioFifo.read` — the rules `initiate_write` and `initiate_read`
* `Info`, `Transaction`, `Completion`
* `InOrder`, `inOrder` — transactions one at a time, and the calls of the board's clients
-/

namespace LeapPlatforms

namespace PcieXupv5

/-! ### The registers -/

/-- What a queue holds at most. -/
def fifoDepth : ℕ := 2

/-- The state of `mkPioFifo`, but for the address. -/
structure PioFifo where
  bar1RPacketCount : BitVec 32 := 0
  bar2RPacketCount : BitVec 32 := 0
  errorRPacketCount : BitVec 32 := 0
  bar1WPacketCount : BitVec 32 := 0
  bar2WPacketCount : BitVec 32 := 0
  errorWPacketCount : BitVec 32 := 0
  loopBackData : BitVec 64 := 0xbeadebaddeababed
  reqQ : List (BitVec 8) := []
  respQ : List (BitVec 8) := []
  dispReqQ : List (BitVec 8) := []
  dispRespQ : List (BitVec 8) := []
  deriving DecidableEq

/-- `buildVersion` and `epochTime`. -/
structure Build where
  buildVersion : BitVec 32
  epochTime : BitVec 32

/-- `addr64`. -/
def addr64 (n : BitVec 32) : BitVec 12 := (n >>> 3).setWidth 12

def bluespecIdRegAddr : BitVec 12 := addr64 0x0000
def addressMapVersionRegAddr : BitVec 12 := addr64 0x0008
def scemiVersionRegAddr : BitVec 12 := addr64 0x0010
def buildRevisionRegAddr : BitVec 12 := addr64 0x0018
def buildTimeStampRegAddr : BitVec 12 := addr64 0x0020
def systemCommandRegAddr : BitVec 12 := addr64 0x0200
def bar1RPacketCountRegAddr : BitVec 12 := addr64 0x0308
def bar2RPacketCountRegAddr : BitVec 12 := addr64 0x0310
def errorRPacketCountRegAddr : BitVec 12 := addr64 0x0318
def bar1WPacketCountRegAddr : BitVec 12 := addr64 0x0320
def bar2WPacketCountRegAddr : BitVec 12 := addr64 0x0328
def errorWPacketCountRegAddr : BitVec 12 := addr64 0x0330
def sysAddr : BitVec 12 := addr64 0x0000
def dispAddr : BitVec 12 := addr64 0x0008

namespace PioFifo

variable (f : PioFifo)

/-- The rule `initiate_write`. -/
def write (addr : BitVec 12) (bar : BitVec 3) (byteEnables : BitVec 8) (writeData : BitVec 64) :
    PioFifo :=
  if bar.getLsbD 0 then
    { f with
      bar1WPacketCount := f.bar1WPacketCount + 1
      loopBackData :=
        (if byteEnables.extractLsb' 0 4 ≠ 0 then writeData.extractLsb' 0 32
          else f.loopBackData.extractLsb' 0 32) ++
        (if byteEnables.extractLsb' 4 4 ≠ 0 then writeData.extractLsb' 32 32
          else f.loopBackData.extractLsb' 32 32) }
  else if bar.getLsbD 1 ∧ addr = sysAddr ∧ f.respQ.length < fifoDepth then
    { f with
      respQ := f.respQ ++ [writeData.setWidth 8], bar2WPacketCount := f.bar2WPacketCount + 1 }
  else if bar.getLsbD 1 ∧ addr = dispAddr ∧ f.dispRespQ.length < fifoDepth then
    { f with
      dispRespQ := f.dispRespQ ++ [writeData.setWidth 8]
      bar2WPacketCount := f.bar2WPacketCount + 1 }
  else { f with errorWPacketCount := f.errorWPacketCount + 1 }

/-- What a register of BAR1 holds. -/
def register (B : Build) (addr : BitVec 12) : BitVec 64 :=
  if addr = bluespecIdRegAddr then 0x426c756573706563
  else if addr = addressMapVersionRegAddr then 2
  else if addr = scemiVersionRegAddr then 0x100
  else if addr = buildRevisionRegAddr then B.buildVersion.setWidth 64
  else if addr = buildTimeStampRegAddr then B.epochTime.setWidth 64
  else if addr = systemCommandRegAddr then f.loopBackData
  else if addr = bar1RPacketCountRegAddr then f.bar1RPacketCount.setWidth 64
  else if addr = bar2RPacketCountRegAddr then f.bar2RPacketCount.setWidth 64
  else if addr = errorRPacketCountRegAddr then f.errorRPacketCount.setWidth 64
  else if addr = bar1WPacketCountRegAddr then f.bar1WPacketCount.setWidth 64
  else if addr = bar2WPacketCountRegAddr then f.bar2WPacketCount.setWidth 64
  else if addr = errorWPacketCountRegAddr then f.errorWPacketCount.setWidth 64
  else 0x0bad0bad0bad0bad

/-- The rule `initiate_read`, with the data that it fulfills the read with. -/
def read (B : Build) (addr : BitVec 12) (bar : BitVec 3) : BitVec 64 × PioFifo :=
  if bar.getLsbD 0 then
    (f.register B addr, { f with bar1RPacketCount := f.bar1RPacketCount + 1 })
  else
    match decide (bar.getLsbD 1 ∧ addr = sysAddr), f.reqQ with
    | true, byte :: rest =>
      (byte.setWidth 64,
        { f with reqQ := rest, bar2RPacketCount := f.bar2RPacketCount + 1 })
    | _, _ =>
      match decide (bar.getLsbD 1 ∧ addr = dispAddr), f.dispReqQ with
      | true, byte :: rest =>
        (byte.setWidth 64,
          { f with dispReqQ := rest, bar2RPacketCount := f.bar2RPacketCount + 1 })
      | _, _ => (0xdeaddeaddeaddead, { f with errorRPacketCount := f.errorRPacketCount + 1 })

end PioFifo

/-- The methods that the board's clients call, with what they give or get. -/
inductive Call
  | req (r : BitVec 8)
  | resp (r : BitVec 8)
  | dispReq (r : BitVec 8)
  | dispResp (r : BitVec 8)
  deriving DecidableEq

/-- When a method can be called, and what it gets then. -/
def Call.Ready (f : PioFifo) : Call → Prop
  | .req _ => f.reqQ.length < fifoDepth
  | .resp r => f.respQ.head? = some r
  | .dispReq _ => f.dispReqQ.length < fifoDepth
  | .dispResp r => f.dispRespQ.head? = some r

/-- The method that is called, whatever the byte. -/
def Call.method : Call → ℕ
  | .req _ => 0
  | .resp _ => 1
  | .dispReq _ => 2
  | .dispResp _ => 3

/-- What a method does. -/
def PioFifo.call (f : PioFifo) : Call → PioFifo
  | .req r => { f with reqQ := f.reqQ ++ [r] }
  | .resp _ => { f with respQ := f.respQ.tail }
  | .dispReq r => { f with dispReqQ := f.dispReqQ ++ [r] }
  | .dispResp _ => { f with dispRespQ := f.dispRespQ.tail }

/-! ### Transactions -/

/-- What the board keeps of a request: what a completion copies, the first double word of the
header, the address in double words, the byte enables, and the window that was hit. -/
structure Info (H : Type*) where
  header : H
  dw0 : BitVec 32
  addr : BitVec 30
  firstBE : BitVec 4
  bar : BitVec 7
  read : Bool
  dw3 : Bool

/-- A request of the host, with the data of a write as they are sent. -/
structure Transaction (H : Type*) where
  info : Info H
  data : BitVec 32

/-- A completion: the request, and the data as they are sent. -/
structure Completion (H : Type*) where
  info : Info H
  data : BitVec 32

/-- `byteSwap`. -/
def byteSwap (w : BitVec 32) : BitVec 32 :=
  w.extractLsb' 0 8 ++ w.extractLsb' 8 8 ++ w.extractLsb' 16 8 ++ w.extractLsb' 24 8

variable {H : Type*}

namespace Info

variable (i : Info H)

/-- The address in bytes. -/
def address : BitVec 32 := i.addr ++ 0#2

/-- The register that an address is of. -/
def reg : BitVec 12 := (i.address >>> 3).setWidth 12

/-- The windows that are used. -/
def bars : BitVec 3 :=
  BitVec.ofBool (i.bar.getLsbD 4) ++ BitVec.ofBool (i.bar.getLsbD 2) ++
    BitVec.ofBool (i.bar.getLsbD 1)

/-- The half of the data that is asked for. -/
def half (data : BitVec 64) : BitVec 32 :=
  if i.address.getLsbD 2 then data.extractLsb' 32 32 else data.extractLsb' 0 32

/-- `completeRead`. -/
def complete (data : BitVec 64) : Completion H := ⟨i, byteSwap (i.half data)⟩

end Info

/-! ### One transaction at a time -/

/-- The registers, the transactions that are still to be done, the completions, and the calls so
far. -/
structure InOrder (H : Type*) where
  fifo : PioFifo := {}
  pending : List (Transaction H) := []
  completions : List (Completion H) := []
  arrived : List (Transaction H) := []
  calls : List Call := []

namespace InOrder

variable (B : Build) (s : InOrder H)

/-- A transaction is done. -/
def perform (t : Transaction H) : InOrder H :=
  if t.info.read then
    let r := s.fifo.read B t.info.reg t.info.bars
    { s with fifo := r.2, completions := s.completions ++ [t.info.complete r.1] }
  else
    { s with
      fifo := s.fifo.write t.info.reg t.info.bars (t.info.firstBE.setWidth 8)
        ((byteSwap t.data).setWidth 64) }

/-- A method is called. -/
def call (c : Call) : InOrder H := { s with fifo := s.fifo.call c, calls := s.calls ++ [c] }

end InOrder

/-- What happens next. -/
inductive InOrder.Step (B : Build) : InOrder H → InOrder H → Prop
  | arrive (s : InOrder H) (t : Transaction H) :
    Step B s { s with pending := s.pending ++ [t], arrived := s.arrived ++ [t] }
  | perform (s : InOrder H) (t : Transaction H) (rest : List (Transaction H))
    (h : s.pending = t :: rest) : Step B s { s.perform B t with pending := rest }
  | call (s : InOrder H) (c : Call) (h : c.Ready s.fifo) : Step B s (s.call c)

/-- Transactions one at a time, in the order in which they came. -/
def inOrder (B : Build) (H : Type*) : TransitionSystem (InOrder H) where
  init s := s = {}
  step := InOrder.Step B

end PcieXupv5

end LeapPlatforms
