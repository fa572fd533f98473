import LeapPlatforms.PcieXupv5.Bridge
import Mathlib.Logic.Function.Basic
import Mathlib.Tactic.IntervalCases

/-!
# The host's side of the PIO interface

The host sends a byte with a write to a window of the board. The write may find the queue full, and
nothing tells the host so but a counter of the writes that were taken: `serverSendSys` reads it
before and after, and writes again as long as it has not changed. `serverRecvSys` reads until what
it reads is a byte; `serverTestSys` reads once and keeps a byte that it finds for the next
`serverRecvSys`.

One thread writes and another one reads. A read of a window waits for its completion, and a write
does not.

## Main definitions

* `Server`, `Server.next` — both threads, and the board
* `server` — the runs

## Main results

* `InOrder.perform_readCount`, `perform_writeSys`, `perform_readSys` — what the host's transactions
  do
-/

namespace LeapPlatforms

namespace PcieXupv5

/-! ### The code -/

/-- The threads of the host: the one that started, and those that write and read. -/
inductive Thread
  | main
  | writer
  | reader
  deriving DecidableEq

/-- Where a window of the board is in the host's memory, and whether packets for it have short
headers. -/
structure Window where
  base : BitVec 17
  dw3 : Bool

/-- `pBar1` and `pBar2`. -/
structure Windows where
  pBar1 : Window
  pBar2 : Window

/-- An access to a double word of a window. The bytes of a word are sent in the order in which they
are in the memory. -/
def Window.access (w : Window) (thread : Thread) (bar : BitVec 7) (offset : BitVec 15) (read : Bool)
    (word : BitVec 32) : Transaction Thread where
  info :=
    { header := thread
      dw0 := (if read then 0 else 0x40000000) ||| (if w.dw3 then 0 else 0x20000000) ||| 1
      addr := (w.base ++ offset).extractLsb' 2 30
      firstBE := 0xf
      bar
      read
      dw3 := w.dw3 }
  data := byteSwap word

namespace Windows

variable (W : Windows)

/-- `pBar1->command_lo = word`, or its high half. -/
def writeCommand (offset : BitVec 15) : Transaction Thread :=
  W.pBar1.access .main 0x02 offset false 0xdeadbeef

/-- `pBar1->bar2_wpkt_count`. -/
def readCount : Transaction Thread := W.pBar1.access .writer 0x02 0x328 true 0

/-- `pBar2->sys_lo = extendedByte`. -/
def writeSys (byte : BitVec 8) : Transaction Thread :=
  W.pBar2.access .writer 0x04 0 false (byte.signExtend 32)

/-- `pBar2->sys_lo`. -/
def readSys : Transaction Thread := W.pBar2.access .reader 0x04 0 true 0

end Windows

/-- Where `serverSendSys` is. -/
inductive Writer
  | idle
  | start (byte : BitVec 8)
  | counting (byte : BitVec 8)
  | counted (byte : BitVec 8) (wCount : BitVec 32)
  | posted (byte : BitVec 8) (wCount : BitVec 32)
  | recounting (byte : BitVec 8) (wCount : BitVec 32)
  deriving DecidableEq

/-- Where `serverRecvSys` or `serverTestSys` is. -/
inductive Reader
  | idle
  | start
  | receiving
  | probing
  deriving DecidableEq

/-- What a read gets when there is no byte. -/
def noData : BitVec 32 := 0xdeaddead

/-- The host with the board. -/
structure Server where
  board : Bridge Thread
  writer : Writer := .idle
  /-- What a `Write` still has to send. -/
  toWrite : List (BitVec 8) := []
  reader : Reader := .idle
  /-- How much a `Read` still has to get. -/
  toRead : ℕ := 0
  dataPopped : Bool := false
  poppedData : BitVec 32 := 0
  /-- How many completions a thread has had. -/
  answered : Thread → ℕ := fun _ => 0
  /-- What was given to `Write`, and what `Read` has got. -/
  hostWrote : List (BitVec 8) := []
  hostRead : List (BitVec 8) := []

/-- What happens next: the board does something, a method of the host is called, or a thread goes
on. -/
inductive HostAction
  | transmit
  | cycle (rxReady : Bool) (calls : List Call)
  | write (buf : List (BitVec 8))
  | read (bytesRequested : ℕ)
  | probe
  | send
  | receive

namespace Server

variable (B : Build) (W : Windows) (s : Server)

/-- The board does something. -/
def act (a : Action Thread) : Server := { s with board := s.board.next B a }

/-- What a thread waits for, when it is there. -/
def answer (thread : Thread) : Option (BitVec 32) :=
  ((s.board.sent.filter (·.info.header = thread))[s.answered thread]?).map fun c => byteSwap c.data

/-- A thread has had a completion. -/
def advance (thread : Thread) : Server :=
  { s with answered := Function.update s.answered thread (s.answered thread + 1) }

/-- `serverSendSys`, and the loop of `Write`. -/
def send : Option Server :=
  match s.writer with
  | .idle =>
    match s.toWrite with
    | [] => none
    | byte :: rest => some { s with writer := .start byte, toWrite := rest }
  | .start byte => some { s.act B (.arrive W.readCount) with writer := .counting byte }
  | .counting byte =>
    (s.answer .writer).map fun wCount =>
      { s.advance .writer with writer := .counted byte wCount }
  | .counted byte wCount =>
    some { s.act B (.arrive (W.writeSys byte)) with writer := .posted byte wCount }
  | .posted byte wCount =>
    some { s.act B (.arrive W.readCount) with writer := .recounting byte wCount }
  | .recounting byte wCount =>
    (s.answer .writer).map fun newWCount =>
      { s.advance .writer with writer := if newWCount = wCount then .start byte else .idle }

/-- The end of `serverRecvSys`, and the loop of `Read`. -/
def finish : Server :=
  { s with
    reader := .idle
    dataPopped := false
    hostRead := s.hostRead ++ [s.poppedData.setWidth 8]
    toRead := s.toRead - 1 }

/-- `serverRecvSys` and `serverTestSys`. -/
def receive : Option Server :=
  match s.reader with
  | .idle =>
    if s.toRead = 0 then none
    else if s.dataPopped then some s.finish
    else some { s with reader := .start }
  | .start => some { s.act B (.arrive W.readSys) with reader := .receiving }
  | .receiving =>
    (s.answer .reader).map fun data =>
      let t := { s.advance .reader with poppedData := data }
      if data = noData then { t with reader := .start } else t.finish
  | .probing =>
    (s.answer .reader).map fun data =>
      { s.advance .reader with
        poppedData := data, dataPopped := decide (data ≠ noData), reader := .idle }

/-- What an action does, when it can happen. -/
def next : HostAction → Option Server
  | .transmit => if s.board.fifoTx ≠ [] then some (s.act B .transmit) else none
  | .cycle rxReady calls => some (s.act B (.cycle rxReady calls))
  | .write buf =>
    if s.writer = .idle ∧ s.toWrite = [] then
      some { s with toWrite := buf, hostWrote := s.hostWrote ++ buf }
    else none
  | .read bytesRequested =>
    if s.reader = .idle ∧ s.toRead = 0 then some { s with toRead := bytesRequested } else none
  | .probe =>
    if s.reader = .idle ∧ s.toRead = 0 then
      some (if s.dataPopped then s
        else { s.act B (.arrive W.readSys) with reader := .probing })
    else none
  | .send => s.send B W
  | .receive => s.receive B W

/-- `serverStart`. -/
def start : Server :=
  { board := (({} : Bridge Thread).next B (.arrive (W.writeCommand 0x200))).next B
      (.arrive (W.writeCommand 0x204)) }

end Server

/-- When an action can happen, besides what `Server.next` says. -/
def HostAction.Ready (s : Server) : HostAction → Prop
  | .cycle _ calls => CallsReady s.board.fifo calls
  | _ => True

/-- The runs of the host with the board. -/
def server (B : Build) (W : Windows) : TransitionSystem Server where
  init s := s = Server.start B W
  step s t := ∃ a : HostAction, a.Ready s ∧ s.next B W a = some t

/-! ### The transactions of the host -/

variable {B : Build} {W : Windows}

theorem Window.address_access (w : Window) (thread : Thread) (bar : BitVec 7) (offset : BitVec 15)
    (read : Bool) (word : BitVec 32) {i : ℕ} (h2 : 2 ≤ i) (h15 : i < 15) :
    (w.access thread bar offset read word).info.address.getLsbD i = offset.getLsbD i := by
  rw [Info.address, Window.access, BitVec.getLsbD_append, if_neg (by omega),
    BitVec.getLsbD_extractLsb', BitVec.getLsbD_append, if_pos (by omega),
    decide_eq_true (by omega), Bool.true_and, Nat.add_sub_cancel' h2]

/-- The register is that of the offset. -/
theorem Window.reg_access (w : Window) (thread : Thread) (bar : BitVec 7) (offset : BitVec 15)
    (read : Bool) (word : BitVec 32) :
    (w.access thread bar offset read word).info.reg = (offset >>> 3).setWidth 12 := by
  refine BitVec.eq_of_getLsbD_eq fun i hi => ?_
  simp only [Info.reg, BitVec.getLsbD_setWidth, BitVec.getLsbD_ushiftRight]
  rw [w.address_access thread bar offset read word (by omega) (by omega)]

/-- The half of the data is that of the offset. -/
theorem Window.half_access (w : Window) (thread : Thread) (bar : BitVec 7) (offset : BitVec 15)
    (read : Bool) (word : BitVec 32) (data : BitVec 64) :
    (w.access thread bar offset read word).info.half data =
      if offset.getLsbD 2 then data.extractLsb' 32 32 else data.extractLsb' 0 32 := by
  rw [Info.half, w.address_access thread bar offset read word (by decide) (by decide)]

/-- The window is that of the access. -/
theorem Window.bars_access (w : Window) (thread : Thread) (bar : BitVec 7) (offset : BitVec 15)
    (read : Bool) (word : BitVec 32) :
    (w.access thread bar offset read word).info.bars =
      BitVec.ofBool (bar.getLsbD 4) ++ BitVec.ofBool (bar.getLsbD 2) ++
        BitVec.ofBool (bar.getLsbD 1) := rfl

theorem byteSwap_byteSwap (x : BitVec 32) : byteSwap (byteSwap x) = x := by
  refine BitVec.eq_of_getLsbD_eq fun i hi => ?_
  simp only [byteSwap, BitVec.getLsbD_append, BitVec.getLsbD_extractLsb']
  interval_cases i <;> simp

/-- The bits of a word that a byte was extended to. -/
theorem setWidth_signExtend (byte : BitVec 8) :
    ((byte.signExtend 32).setWidth 64).setWidth 8 = byte := by
  refine BitVec.eq_of_getLsbD_eq fun i hi => ?_
  have h32 : i < 32 := by omega
  have h64 : i < 64 := by omega
  simp only [BitVec.getLsbD_setWidth, BitVec.getLsbD_signExtend, hi, h32, h64, decide_true,
    Bool.true_and, if_true]

/-- A read of the queue of bytes, when it is empty. -/
theorem PioFifo.read_sys_nil (f : PioFifo) (h : f.reqQ = []) :
    f.read B sysAddr 2 =
      (0xdeaddeaddeaddead, { f with errorRPacketCount := f.errorRPacketCount + 1 }) := by
  have hdisp : sysAddr ≠ dispAddr := by decide
  rw [PioFifo.read, if_neg (by decide), h]
  cases f.dispReqQ <;> simp [hdisp]

/-- A read of the queue of bytes. -/
theorem PioFifo.read_sys_cons (f : PioFifo) {byte : BitVec 8} {rest : List (BitVec 8)}
    (h : f.reqQ = byte :: rest) :
    f.read B sysAddr 2 =
      (byte.setWidth 64,
        { f with reqQ := rest, bar2RPacketCount := f.bar2RPacketCount + 1 }) := by
  rw [PioFifo.read, if_neg (by decide), h]
  rfl

namespace InOrder

variable (a : InOrder Thread)

/-- A write of the command register is of no register that bytes are in. -/
theorem perform_writeCommand (offset : BitVec 15) :
    ∃ bar1WPacketCount loopBackData, a.perform B (W.writeCommand offset) =
      { a with fifo := { a.fifo with bar1WPacketCount, loopBackData } } := by
  have hbar : (W.writeCommand offset).info.bars.getLsbD 0 = true := by
    rw [Windows.writeCommand, Window.bars_access]
    decide
  rw [InOrder.perform, if_neg (by exact Bool.false_ne_true), PioFifo.write, if_pos hbar]
  exact ⟨_, _, rfl⟩

/-- The count of the writes that were taken. -/
theorem perform_readCount :
    ∃ bar1RPacketCount, ∃ c : Completion Thread, c.info.header = .writer ∧
      byteSwap c.data = a.fifo.bar2WPacketCount ∧ a.perform B W.readCount =
        { a with
          fifo := { a.fifo with bar1RPacketCount }, completions := a.completions ++ [c] } := by
  have hbar : W.readCount.info.bars.getLsbD 0 = true := by
    rw [Windows.readCount, Window.bars_access]
    decide
  have hreg : a.fifo.register B W.readCount.info.reg = a.fifo.bar2WPacketCount.setWidth 64 := by
    rw [Windows.readCount, Window.reg_access]
    rfl
  refine ⟨a.fifo.bar1RPacketCount + 1,
    W.readCount.info.complete (a.fifo.bar2WPacketCount.setWidth 64), rfl, ?_, ?_⟩
  · rw [Info.complete, byteSwap_byteSwap, Windows.readCount, Window.half_access,
      if_neg (by decide)]
    refine BitVec.eq_of_getLsbD_eq fun i hi => ?_
    have h64 : i < 64 := by omega
    simp [hi, h64]
  · rw [InOrder.perform, if_pos (by rfl), PioFifo.read, if_pos hbar, hreg]

/-- A byte is taken when there is room for it, and counted. -/
theorem perform_writeSys (byte : BitVec 8) :
    a.fifo.respQ.length < fifoDepth ∧ a.perform B (W.writeSys byte) =
        { a with
          fifo := { a.fifo with
            respQ := a.fifo.respQ ++ [byte], bar2WPacketCount := a.fifo.bar2WPacketCount + 1 } } ∨
      ¬ a.fifo.respQ.length < fifoDepth ∧ ∃ errorWPacketCount,
        a.perform B (W.writeSys byte) = { a with fifo := { a.fifo with errorWPacketCount } } := by
  have hreg : (W.writeSys byte).info.reg = sysAddr := by
    rw [Windows.writeSys, Window.reg_access]
    rfl
  have hbar : (W.writeSys byte).info.bars = 2 := by
    rw [Windows.writeSys, Window.bars_access]
    decide
  have hbyte : ((byteSwap (W.writeSys byte).data).setWidth 64).setWidth 8 = byte := by
    rw [Windows.writeSys, Window.access, byteSwap_byteSwap, setWidth_signExtend]
  rw [InOrder.perform, if_neg (by exact Bool.false_ne_true), PioFifo.write, hbar, hreg, hbyte,
    if_neg (by decide)]
  by_cases hroom : a.fifo.respQ.length < fifoDepth
  · rw [if_pos ⟨by decide, rfl, hroom⟩]
    exact .inl ⟨hroom, rfl⟩
  · rw [if_neg fun h => hroom h.2.2, if_neg fun h => absurd h.2.1 (by decide)]
    exact .inr ⟨hroom, _, rfl⟩

/-- A read gets the first byte, or what is no byte. -/
theorem perform_readSys :
    ∃ c : Completion Thread, c.info.header = .reader ∧
      ((∃ byte rest bar2RPacketCount, a.fifo.reqQ = byte :: rest ∧
        byteSwap c.data = byte.setWidth 32 ∧ a.perform B W.readSys =
          { a with
            fifo := { a.fifo with reqQ := rest, bar2RPacketCount }
            completions := a.completions ++ [c] }) ∨
      ∃ errorRPacketCount, a.fifo.reqQ = [] ∧ byteSwap c.data = noData ∧
        a.perform B W.readSys =
          { a with
            fifo := { a.fifo with errorRPacketCount }, completions := a.completions ++ [c] }) := by
  have hreg : W.readSys.info.reg = sysAddr := by
    rw [Windows.readSys, Window.reg_access]
    rfl
  have hbar : W.readSys.info.bars = 2 := by
    rw [Windows.readSys, Window.bars_access]
    decide
  have hhalf : ∀ data, byteSwap (W.readSys.info.complete data).data = data.extractLsb' 0 32 := by
    intro data
    rw [Info.complete, byteSwap_byteSwap, Windows.readSys, Window.half_access, if_neg (by decide)]
  rw [InOrder.perform, if_pos (by rfl), hbar, hreg]
  rcases hreq : a.fifo.reqQ with _ | ⟨byte, rest⟩
  · refine ⟨W.readSys.info.complete 0xdeaddeaddeaddead, rfl,
      .inr ⟨a.fifo.errorRPacketCount + 1, rfl, ?_, ?_⟩⟩
    · rw [hhalf]
      decide
    · rw [a.fifo.read_sys_nil hreq]
  · refine ⟨W.readSys.info.complete (byte.setWidth 64), rfl,
      .inl ⟨byte, rest, a.fifo.bar2RPacketCount + 1, rfl, ?_, ?_⟩⟩
    · rw [hhalf]
      refine BitVec.eq_of_getLsbD_eq fun i hi => ?_
      have h64 : i < 64 := by omega
      simp [hi, h64]
    · rw [a.fifo.read_sys_cons hreq]

end InOrder

end PcieXupv5

end LeapPlatforms
