import LeapPlatforms.PcieCsr.TxWrapper

/-!
# Register accesses of the host

The host machine takes the access pulses of the receiver while it rests, and writes or reads one
register: one of the regular CSRs in a block RAM, or one of the few of BAR0. For a read it asks the
transmitter for a completion.

The block RAM is a netlist. What the machine relies on is that it is a synchronous RAM with two
ports, of which the FPGA side has the other.

## Main definitions

* `CsrHostIn`, `CsrSt`, `CsrHostCtrl`, `CsrHostCtrl.next`
* `Bar0In`, `PcieBar0`, `PcieBar0.next`
* `BramPort`, `CsrBram` — the block RAM
* `Reg`, `regOf` — the registers as the host addresses them
-/

namespace LeapPlatforms

namespace PcieCsr

/-! ### The host machine -/

/-- The input signals. -/
structure CsrHostIn where
  hwChnlRst : Bool
  mrd32ReqAddr : BitVec 32
  csrRdStart : Bool
  mwr32Addr : BitVec 32
  mwr32Data : BitVec 32
  csrWrStart : Bool
  cpldStartAck : Bool
  cpldFinish : Bool
  bar0RdData : BitVec 32
  bramDout : BitVec 32

/-- The states of the machine. -/
inductive CsrSt
  | rst
  | readBram
  | readBar0
  | readCpld
  | readCpldFinish
  | write
  deriving DecidableEq

/-- The registers; the defaults are the values after a reset. -/
structure CsrHostCtrl where
  cpldStart : Bool := false
  mrd32ReqData : BitVec 32 := 0
  bar0WrAddr : BitVec 8 := 0
  bar0WrEn : Bool := false
  bar0WrData : BitVec 32 := 0
  bar0RdAddr : BitVec 8 := 0
  bramAddr : BitVec 8 := 0
  bramDin : BitVec 32 := 0
  bramWen : Bool := false
  csrRdDelay : Bool := false
  csrSt : CsrSt := .rst
  deriving DecidableEq

namespace CsrHostCtrl

variable (s : CsrHostCtrl) (i : CsrHostIn)

/-- The machine rests: a write goes before a read. -/
def nextRst : CsrHostCtrl :=
  if i.csrWrStart then
    if i.mwr32Addr.getLsbD 12 then
      -- regular CSR
      { s with
        bramAddr := i.mwr32Addr.extractLsb' 2 8, bramDin := i.mwr32Data
        bramWen := true, bar0WrEn := false, csrSt := .write }
    else
      { s with
        bar0WrAddr := i.mwr32Addr.extractLsb' 2 8, bar0WrData := i.mwr32Data
        bar0WrEn := true, bramWen := false, csrSt := .write }
  else if i.csrRdStart then
    if i.mrd32ReqAddr.getLsbD 12 then
      { s with bramAddr := i.mrd32ReqAddr.extractLsb' 2 8, csrSt := .readBram }
    else { s with bar0RdAddr := i.mrd32ReqAddr.extractLsb' 2 8, csrSt := .readBar0 }
  else s

/-- A rising clock edge. -/
def next : CsrHostCtrl :=
  if i.hwChnlRst then {}
  else
    match s.csrSt with
    | .rst => s.nextRst i
    | .write => { s with bramWen := false, bar0WrEn := false, csrSt := .rst }
    | .readBram =>
      if s.csrRdDelay = false then { s with csrRdDelay := true }
      else
        { s with
          mrd32ReqData := i.bramDout, cpldStart := true, csrRdDelay := false
          csrSt := .readCpld }
    | .readBar0 =>
      if s.csrRdDelay = false then { s with csrRdDelay := true }
      else
        { s with
          mrd32ReqData := i.bar0RdData, cpldStart := true, csrRdDelay := false
          csrSt := .readCpld }
    | .readCpld =>
      if i.cpldStartAck then { s with cpldStart := false, csrSt := .readCpldFinish } else s
    | .readCpldFinish => if i.cpldFinish then { s with csrSt := .rst } else s

end CsrHostCtrl

/-! ### The registers of BAR0 -/

/-- The input signals. -/
structure Bar0In where
  rdAI : BitVec 8
  wrAI : BitVec 8
  wrDI : BitVec 32
  wrEnI : Bool
  pcieCsrOutF2hReg0 : BitVec 32
  pcieBar0RstAck : Bool

/-- The registers of the two processes. -/
structure PcieBar0 where
  rdDO : BitVec 32 := 0
  pcieCsrInH2fReg0WrEn : Bool := false
  pcieCsrInH2fReg0 : BitVec 32 := 0
  intrHostAck : Bool := false
  softRstReg : BitVec 32 := 0
  pcieBar0RstSig : Bool := false
  deriving DecidableEq

namespace PcieBar0

variable (s : PcieBar0) (i : Bar0In)

/-- The data read. -/
def read : BitVec 32 :=
  if i.rdAI = 0x01 then i.pcieCsrOutF2hReg0
  else if i.rdAI = 0x03 then if i.pcieBar0RstAck then 0 else s.softRstReg
  else 0

/-- A rising clock edge. -/
def next : PcieBar0 :=
  let t := { s with rdDO := s.read i }
  if i.wrAI = 0x00 then
    { t with
      pcieCsrInH2fReg0WrEn := i.wrEnI
      pcieCsrInH2fReg0 := if i.wrEnI then i.wrDI else 0 }
  else if i.wrAI = 0x02 then { t with intrHostAck := i.wrEnI }
  else if i.wrAI = 0x03 then
    { t with
      softRstReg := if i.wrEnI then i.wrDI else s.softRstReg
      pcieBar0RstSig := i.wrEnI }
  else
    { t with
      pcieCsrInH2fReg0WrEn := false, pcieCsrInH2fReg0 := 0
      intrHostAck := false, pcieBar0RstSig := false }

variable {s} {i}

theorem next_softRstReg : (s.next i).softRstReg =
    if i.wrEnI = true ∧ i.wrAI = 0x03 then i.wrDI else s.softRstReg := by
  rw [PcieBar0.next]
  by_cases h3 : i.wrAI = 0x03
  · rw [h3]
    simp
  · simp only [h3, and_false, if_false]
    split
    · rfl
    · split <;> rfl

/-- What is read comes out behind the clock. -/
theorem next_rdDO : (s.next i).rdDO = s.read i := by
  rw [PcieBar0.next]
  split
  · rfl
  · split
    · rfl
    · split <;> rfl

end PcieBar0

/-! ### The block RAM -/

/-- A port of the block RAM. -/
structure BramPort where
  addr : BitVec 8
  din : BitVec 32
  wen : Bool

/-- The port writes a word. -/
def BramPort.Writes (p : BramPort) (x : BitVec 8) : Prop := p.wen = true ∧ p.addr = x

instance (p : BramPort) (x : BitVec 8) : Decidable (p.Writes x) :=
  inferInstanceAs (Decidable (_ ∧ _))

/-- The block RAM: port A belongs to the FPGA, port B to the host. When both ports are at one word
in a clock and one of them writes it, nothing is said of what comes out of it, or is in it. -/
structure CsrBram where
  State : Type
  init : State
  next : State → BramPort → BramPort → State
  contents : State → BitVec 8 → BitVec 32
  doutb : State → BitVec 32
  contents_a : ∀ s a b x, a.Writes x → ¬ b.Writes x → contents (next s a b) x = a.din
  contents_b : ∀ s a b x, ¬ a.Writes x → b.Writes x → contents (next s a b) x = b.din
  contents_keep : ∀ s a b x, ¬ a.Writes x → ¬ b.Writes x → contents (next s a b) x = contents s x
  /-- Data comes out a clock after its address. -/
  doutb_next : ∀ s a b, ¬ a.Writes b.addr → b.wen = false →
    doutb (next s a b) = contents s b.addr

/-! ### Addresses -/

/-- A register: a regular CSR or one of BAR0, and its number. -/
structure Reg where
  regular : Bool
  index : BitVec 8
  deriving DecidableEq

/-- The register at an address. -/
def regOf (addr : BitVec 32) : Reg := ⟨addr.getLsbD 12, addr.extractLsb' 2 8⟩

end PcieCsr

end LeapPlatforms
