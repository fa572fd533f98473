import LeapPlatforms.PcieCsr.TxWrapper

/-!
# The receiver of pcie-csr

One state machine takes the TLPs from the endpoint: register reads and writes of one DWord, which it
passes on as one-clock pulses with side registers, and completions of DMA reads, whose DWords it
pairs and writes to the FIFO towards the FPGA. While the FIFO is almost full it sets one quadword
aside and holds the endpoint back.

## Main definitions

* `RxIn`, `PcieRxState`, `RxWrapper`
* `RxWrapper.next`

## Main results

* `RxWrapper.goesOn_next` — in a completion the machine stays in it, or comes to its end
-/

namespace LeapPlatforms

namespace PcieCsr

/-- The input signals. -/
structure RxIn where
  trnRd : BitVec 64
  trnRsofN : Bool
  trnReofN : Bool
  trnRsrcRdyN : Bool
  trnRbarHitN : BitVec 7
  h2fFifoFull : Bool
  deriving Inhabited

/-- The states of the machine. -/
inductive PcieRxState
  | rst
  | mrd32Qw1
  | mwr32Qw1
  | cpldQw1
  | cpldQwn
  | cpldQwnw
  deriving DecidableEq

/-- The registers; the defaults are the values after a reset. -/
structure RxWrapper where
  pcieRxState : PcieRxState := .rst
  trnRdstRdyN : Bool := false
  mrd32Req : Mrd32Req := ⟨0, 0, 0, 0, 0, 0, 0, 0, 0⟩
  mrd32ReqBar : Bool := true
  csrRdStart : Bool := false
  mwr32Addr : BitVec 32 := 0
  mwr32Data : BitVec 32 := 0
  csrWrStart : Bool := false
  cpldRecvFinish : Bool := false
  cpldRecvLen : BitVec 10 := 0
  h2fFifoData : BitVec 64 := 0
  h2fFifoWen : Bool := false
  /-- The quadword that is set aside is the last of its TLP. -/
  tlpEof : Bool := false
  wrDataTmp : BitVec 64 := 0
  wrDataPre1 : BitVec 32 := 0
  wrDataPre2 : BitVec 32 := 0
  /-- Which of the two holds the DWord without a partner. -/
  wrDataSel : Bool := false
  deriving DecidableEq

def pcieMrd32FmtType : BitVec 7 := 0b0000000#7

def pcieMwr32FmtType : BitVec 7 := 0b1000000#7

/-- The first DWord of a quadword, which is the high half. -/
def hiDw (w : BitVec 64) : BitVec 32 := w.extractLsb' 32 32

/-- The second DWord of a quadword. -/
def loDw (w : BitVec 64) : BitVec 32 := w.extractLsb' 0 32

namespace RxWrapper

variable (s : RxWrapper) (i : RxIn)

/-- The DWord without a partner. -/
def wrDataPre : BitVec 32 := if s.wrDataSel = false then s.wrDataPre1 else s.wrDataPre2

/-- Write the DWord without a partner and the first one of a quadword. -/
def writePair (w : BitVec 64) : RxWrapper :=
  { s with h2fFifoData := hiDw w ++ s.wrDataPre, h2fFifoWen := true, trnRdstRdyN := false }

/-- Keep the second DWord of a quadword, in the register that is free. -/
def keepSecond (w : BitVec 64) : RxWrapper :=
  if s.wrDataSel = false then { s with wrDataPre2 := loDw w, wrDataSel := true }
  else { s with wrDataPre1 := loDw w, wrDataSel := false }

@[simp] theorem keepSecond_wrDataPre (w : BitVec 64) : (s.keepSecond w).wrDataPre = loDw w := by
  rw [keepSecond, wrDataPre]
  split <;> simp

/-- Keeping a DWord changes the two registers and their selection only. -/
theorem keepSecond_eq (w : BitVec 64) : ∃ pre1 pre2 sel,
    s.keepSecond w = { s with wrDataPre1 := pre1, wrDataPre2 := pre2, wrDataSel := sel } := by
  rw [keepSecond]
  split
  · exact ⟨s.wrDataPre1, loDw w, true, rfl⟩
  · exact ⟨loDw w, s.wrDataPre2, false, rfl⟩

/-- The machine waits for a header. -/
def nextRst : RxWrapper :=
  let idle :=
    { s with csrRdStart := false, csrWrStart := false, cpldRecvFinish := false
             h2fFifoWen := false }
  if i.trnRsofN = false ∧ i.trnRsrcRdyN = false then
    if i.trnRd.extractLsb' 56 7 = pcieMrd32FmtType then
      if i.trnRd.extractLsb' 32 10 = 1 then
        { idle with
          mrd32Req :=
            { tc := i.trnRd.extractLsb' 52 3
              td := i.trnRd.extractLsb' 47 1
              ep := i.trnRd.extractLsb' 46 1
              attr := i.trnRd.extractLsb' 44 2
              len := i.trnRd.extractLsb' 32 10
              rid := i.trnRd.extractLsb' 16 16
              tag := i.trnRd.extractLsb' 8 8
              be := i.trnRd.extractLsb' 0 4
              addr := s.mrd32Req.addr }
          pcieRxState := .mrd32Qw1 }
      else idle
    else if i.trnRd.extractLsb' 56 7 = pcieMwr32FmtType then
      if i.trnRd.extractLsb' 32 10 = 1 then { idle with pcieRxState := .mwr32Qw1 } else idle
    else if i.trnRd.extractLsb' 56 7 = pcieCpldFmtType then
      { idle with cpldRecvLen := i.trnRd.extractLsb' 32 10, pcieRxState := .cpldQw1 }
    else idle
  else idle

/-- A quadword of a completion behind the first DWord. -/
def nextCpldQwn : RxWrapper :=
  if i.h2fFifoFull = false then
    if i.trnRsrcRdyN = false then
      if i.trnReofN = false then
        { s.writePair i.trnRd with cpldRecvFinish := true, pcieRxState := .rst }
      else (s.writePair i.trnRd).keepSecond i.trnRd
    else { s with h2fFifoWen := false, trnRdstRdyN := false }
  else if i.trnRsrcRdyN = false then
    { s with
      tlpEof := !i.trnReofN, wrDataTmp := i.trnRd, trnRdstRdyN := true, h2fFifoWen := false
      pcieRxState := .cpldQwnw }
  else { s with trnRdstRdyN := false, h2fFifoWen := false }

/-- A quadword is set aside. -/
def nextCpldQwnw : RxWrapper :=
  if i.h2fFifoFull = false then
    if s.tlpEof then { s.writePair s.wrDataTmp with cpldRecvFinish := true, pcieRxState := .rst }
    else { (s.writePair s.wrDataTmp).keepSecond s.wrDataTmp with pcieRxState := .cpldQwn }
  else { s with trnRdstRdyN := true, h2fFifoWen := false }

/-- A rising clock edge. -/
def next : RxWrapper :=
  match s.pcieRxState with
  | .rst => s.nextRst i
  | .mrd32Qw1 =>
    if i.trnReofN = false ∧ i.trnRsrcRdyN = false then
      { s with
        mrd32Req := { s.mrd32Req with addr := i.trnRd.extractLsb' 32 32 }
        mrd32ReqBar := i.trnRbarHitN.getLsbD 0
        csrRdStart := true, pcieRxState := .rst }
    else s
  | .mwr32Qw1 =>
    if i.trnReofN = false ∧ i.trnRsrcRdyN = false then
      { s with
        mwr32Addr := i.trnRd.extractLsb' 32 32, mwr32Data := i.trnRd.extractLsb' 0 32
        csrWrStart := true, pcieRxState := .rst }
    else s
  | .cpldQw1 =>
    if i.trnRsrcRdyN = false then
      { s with
        wrDataPre1 := loDw i.trnRd, wrDataSel := false, h2fFifoWen := false, trnRdstRdyN := false
        pcieRxState := .cpldQwn }
    else s
  | .cpldQwn => s.nextCpldQwn i
  | .cpldQwnw => s.nextCpldQwnw i

variable {s i}

/-- A completion goes on, or its end is shown. -/
def GoesOn (s t : RxWrapper) : Prop :=
  t.cpldRecvLen = s.cpldRecvLen ∧
    (t.pcieRxState = .rst ∧ t.cpldRecvFinish = true ∨
      (t.pcieRxState = .cpldQw1 ∨ t.pcieRxState = .cpldQwn ∨ t.pcieRxState = .cpldQwnw) ∧
        t.cpldRecvFinish = s.cpldRecvFinish)

/-- In the states of a completion the machine stays in it, or comes to its end. -/
theorem goesOn_next (hstate : s.pcieRxState = .cpldQw1 ∨ s.pcieRxState = .cpldQwn ∨
    s.pcieRxState = .cpldQwnw) : GoesOn s (s.next i) := by
  rcases hstate with h | h | h
  · rw [next, h]
    simp only
    split
    · exact ⟨rfl, .inr ⟨.inr (.inl rfl), rfl⟩⟩
    · exact ⟨rfl, .inr ⟨.inl h, rfl⟩⟩
  · rw [next, h]
    simp only [nextCpldQwn]
    split
    · split
      · split
        · exact ⟨rfl, .inl ⟨rfl, rfl⟩⟩
        · obtain ⟨pre1, pre2, sel, heq⟩ := (s.writePair i.trnRd).keepSecond_eq i.trnRd
          rw [heq]
          exact ⟨rfl, .inr ⟨.inr (.inl h), rfl⟩⟩
      · exact ⟨rfl, .inr ⟨.inr (.inl h), rfl⟩⟩
    · split
      · exact ⟨rfl, .inr ⟨.inr (.inr rfl), rfl⟩⟩
      · exact ⟨rfl, .inr ⟨.inr (.inl h), rfl⟩⟩
  · rw [next, h]
    simp only [nextCpldQwnw]
    split
    · split
      · exact ⟨rfl, .inl ⟨rfl, rfl⟩⟩
      · obtain ⟨pre1, pre2, sel, heq⟩ := (s.writePair s.wrDataTmp).keepSecond_eq s.wrDataTmp
        rw [heq]
        exact ⟨rfl, .inr ⟨.inr (.inl rfl), rfl⟩⟩
    · exact ⟨rfl, .inr ⟨.inr (.inr h), rfl⟩⟩

end RxWrapper

end PcieCsr

end LeapPlatforms
