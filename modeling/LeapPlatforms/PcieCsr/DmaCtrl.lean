import LeapPlatforms.PcieCsr.TxWrapper

/-!
# The DMA engine of pcie-csr

Three state machines: one cuts a read of host memory into read requests, one counts the completions
that come back, and one cuts a write to host memory into write TLPs. Requests go to the transmitter
over a start signal, a one-clock acknowledgement and a finish signal.

## Main definitions

* `DmaIn` — the input signals
* `maxLen`, `maxLenCode`, `pieceLen`, `pieceTag` — what the combinational processes compute
* `H2fReqSm`, `H2fRecvSm`, `F2hSm`, `DmaCtrl` — the registers
* `DmaCtrl.h2fReqSm`, `DmaCtrl.h2fRecvSm`, `DmaCtrl.f2hSm`, `DmaCtrl.next`
-/

namespace LeapPlatforms

namespace PcieCsr

/-- The input signals. -/
structure DmaIn where
  dmaInH2fEn : Bool
  dmaInH2fPaddr : BitVec 64
  dmaInH2fLen : BitVec 32
  dmaInF2hEn : Bool
  dmaInF2hPaddr : BitVec 64
  dmaInF2hLen : BitVec 32
  mwr64StartAck : Bool
  mwr64Finish : Bool
  mrd64ReqStartAck : Bool
  mrd64ReqFinish : Bool
  cpldRecvFinish : Bool
  cpldRecvLen : BitVec 10
  cfgMaxRdReqSize : BitVec 3
  cfgMaxPayloadSize : BitVec 3
  cfgExtTagEn : Bool
  hwChnlRst : Bool
  deriving Inhabited

/-! ### Sizes -/

/-- The greatest size of a request in bytes, for both kinds of request. -/
def maxLen (size : BitVec 3) : BitVec 32 :=
  if size = 0b000#3 then 0x80
  else if size = 0b001#3 then 0x100
  else if size = 0b010#3 then 0x200
  else if size = 0b011#3 then 0x400
  else if size = 0b100#3 then 0x800
  else if size = 0b101#3 then 0x1000
  else 0

/-- Its code in DWords. The source gives none for the sizes that PCIe does not define. -/
def maxLenCode (size : BitVec 3) : BitVec 10 :=
  if size = 0b000#3 then 0b0000100000#10
  else if size = 0b001#3 then 0b0001000000#10
  else if size = 0b010#3 then 0b0010000000#10
  else if size = 0b011#3 then 0b0100000000#10
  else if size = 0b100#3 then 0b1000000000#10
  else 0b0000000000#10

/-- The length of the next request: all that is left, or the greatest size. -/
def pieceLen (size : BitVec 3) (lenRem : BitVec 32) : BitVec 10 :=
  if lenRem < maxLen size then lenRem.extractLsb' 2 10 else maxLenCode size

/-- How many requests of the greatest size are left. -/
def pieceCount (size : BitVec 3) (lenRem : BitVec 32) : BitVec 8 :=
  if size.toNat ≤ 5 then lenRem.extractLsb' (7 + size.toNat) 8 else 0

/-- The tag of the next request. -/
def pieceTag (size : BitVec 3) (lenRem : BitVec 32) (cfgExtTagEn : Bool) : BitVec 8 :=
  if cfgExtTagEn then pieceCount size lenRem
  else 0#3 ++ (pieceCount size lenRem).extractLsb' 0 5

/-! ### Registers -/

/-- The states of the machine that requests a read. -/
inductive H2fReqState
  | idle
  | dma1
  | dma2
  | dma3
  deriving DecidableEq

/-- Its registers. -/
structure H2fReqSm where
  dmaOutH2fReady : Bool := true
  mrd64ReqStart : Bool := false
  h2fRecvStart : Bool := false
  h2fCurAddr64 : BitVec 64 := 0
  h2fReqLenRem : BitVec 32 := 0
  h2fReqFinish : Bool := false
  h2fReqState : H2fReqState := .idle
  deriving DecidableEq

/-- The states of the machine that counts completions. -/
inductive H2fRecvState
  | idle
  | st1
  deriving DecidableEq

/-- Its registers. -/
structure H2fRecvSm where
  h2fRecvFinish : Bool := false
  h2fRecvLenRem : BitVec 32 := 0
  h2fRecvState : H2fRecvState := .idle
  deriving DecidableEq

/-- The states of the machine that requests writes. -/
inductive F2hState
  | idle
  | dma1
  | dma2
  deriving DecidableEq

/-- Its registers. -/
structure F2hSm where
  dmaOutF2hReady : Bool := true
  mwr64Start : Bool := false
  f2hCurAddr64 : BitVec 64 := 0
  f2hLenRem : BitVec 32 := 0
  f2hFinish : Bool := false
  f2hState : F2hState := .idle
  deriving DecidableEq

/-- All registers of the engine; the defaults are the values after a reset. -/
structure DmaCtrl where
  req : H2fReqSm := {}
  recv : H2fRecvSm := {}
  f2h : F2hSm := {}
  deriving DecidableEq

namespace DmaCtrl

variable (s : DmaCtrl) (i : DmaIn)

/-- The read request at the transmitter. -/
def mrd64Req : MemReq where
  len := pieceLen i.cfgMaxRdReqSize s.req.h2fReqLenRem
  tag := pieceTag i.cfgMaxRdReqSize s.req.h2fReqLenRem i.cfgExtTagEn
  addr := s.req.h2fCurAddr64

/-- The write request at the transmitter. -/
def mwr64 : MemReq where
  len := pieceLen i.cfgMaxPayloadSize s.f2h.f2hLenRem
  tag := pieceTag i.cfgMaxPayloadSize s.f2h.f2hLenRem i.cfgExtTagEn
  addr := s.f2h.f2hCurAddr64

/-! ### Processes -/

/-- The requests of a read. -/
def h2fReqSm : H2fReqSm :=
  if i.hwChnlRst then
    { s.req with
      h2fCurAddr64 := 0, h2fReqLenRem := 0, mrd64ReqStart := false, h2fRecvStart := false
      h2fReqFinish := false, h2fReqState := .idle }
  else
    match s.req.h2fReqState with
    | .idle =>
      if i.dmaInH2fEn then
        { dmaOutH2fReady := false
          h2fCurAddr64 := i.dmaInH2fPaddr, h2fReqLenRem := i.dmaInH2fLen
          mrd64ReqStart := true, h2fRecvStart := true, h2fReqFinish := false
          h2fReqState := .dma1 }
      else
        { dmaOutH2fReady := true
          h2fCurAddr64 := 0, h2fReqLenRem := 0
          mrd64ReqStart := false, h2fRecvStart := false, h2fReqFinish := false
          h2fReqState := .idle }
    | .dma1 =>
      if i.mrd64ReqStartAck then
        if maxLen i.cfgMaxRdReqSize < s.req.h2fReqLenRem then
          { s.req with
            mrd64ReqStart := true, h2fReqFinish := false
            h2fCurAddr64 := s.req.h2fCurAddr64 + (maxLen i.cfgMaxRdReqSize).setWidth 64
            h2fReqLenRem := s.req.h2fReqLenRem - maxLen i.cfgMaxRdReqSize
            h2fReqState := .dma2, h2fRecvStart := false }
        else
          { s.req with
            mrd64ReqStart := false, h2fReqFinish := true, h2fReqState := .dma2
            h2fRecvStart := false }
      else { s.req with mrd64ReqStart := true, h2fReqState := .dma1, h2fRecvStart := false }
    | .dma2 =>
      if i.mrd64ReqFinish then
        if s.req.h2fReqFinish then { s.req with h2fReqState := .dma3 }
        else { s.req with h2fReqState := .dma1 }
      else s.req
    | .dma3 =>
      if s.recv.h2fRecvFinish then { s.req with dmaOutH2fReady := true, h2fReqState := .idle }
      else s.req

/-- The completions of a read: DWords are counted, whatever request they are for. -/
def h2fRecvSm : H2fRecvSm :=
  if i.hwChnlRst then { s.recv with h2fRecvFinish := false }
  else
    match s.recv.h2fRecvState with
    | .idle =>
      if s.req.h2fRecvStart then
        { h2fRecvLenRem := s.req.h2fReqLenRem, h2fRecvFinish := false, h2fRecvState := .st1 }
      else { s.recv with h2fRecvFinish := false }
    | .st1 =>
      if i.cpldRecvFinish then
        -- the length in DWords against the rest in bytes
        if s.recv.h2fRecvLenRem = (i.cpldRecvLen ++ 0b00#2).setWidth 32 then
          { s.recv with h2fRecvFinish := true, h2fRecvState := .idle }
        else
          { s.recv with
            h2fRecvLenRem := s.recv.h2fRecvLenRem - (i.cpldRecvLen ++ 0b00#2).setWidth 32 }
      else s.recv

/-- The write TLPs of a write. -/
def f2hSm : F2hSm :=
  if i.hwChnlRst then
    { s.f2h with
      dmaOutF2hReady := true, mwr64Start := false, f2hCurAddr64 := 0, f2hLenRem := 0
      f2hState := .idle }
  else
    match s.f2h.f2hState with
    | .idle =>
      if i.dmaInF2hEn then
        { s.f2h with
          dmaOutF2hReady := false
          f2hCurAddr64 := i.dmaInF2hPaddr, f2hLenRem := i.dmaInF2hLen
          mwr64Start := true
          f2hState := .dma1 }
      else
        { s.f2h with
          dmaOutF2hReady := true, mwr64Start := false, f2hCurAddr64 := 0, f2hLenRem := 0
          f2hState := .idle }
    | .dma1 =>
      if i.mwr64StartAck then
        if maxLen i.cfgMaxPayloadSize < s.f2h.f2hLenRem then
          { s.f2h with
            f2hFinish := false
            f2hCurAddr64 := s.f2h.f2hCurAddr64 + (maxLen i.cfgMaxPayloadSize).setWidth 64
            f2hLenRem := s.f2h.f2hLenRem - maxLen i.cfgMaxPayloadSize
            f2hState := .dma2 }
        else { s.f2h with mwr64Start := false, f2hFinish := true, f2hState := .dma2 }
      else { s.f2h with mwr64Start := true, f2hState := .dma1 }
    | .dma2 =>
      if i.mwr64Finish then
        if s.f2h.f2hFinish then { s.f2h with dmaOutF2hReady := true, f2hState := .idle }
        else { s.f2h with f2hState := .dma1 }
      else s.f2h

/-- A rising clock edge. -/
def next : DmaCtrl where
  req := s.h2fReqSm i
  recv := s.h2fRecvSm i
  f2h := s.f2hSm i

end DmaCtrl

end PcieCsr

end LeapPlatforms
