import Mathlib.Data.BitVec

/-!
# The transmitter of pcie-csr

One state machine sends the three kinds of TLP to the endpoint: completions for register reads,
memory read requests and memory writes. An arbiter latches the next request in the last quadword of
the one before, or while the machine rests.

A rising clock edge takes the registers and the input signals to the next registers: each process of
the source is one function, and they all read the registers as they were. Signals that the source
names `_n` are active low here as well.

## Main definitions

* `MemReq`, `Mrd32Req` — what is asked for
* `TxIn`, `Arbiter`, `TxSm`, `TxWrapper` — the input signals and the registers
* `calcBe`, `calcLaddr`, `cpldHeader`, `mrd64Header`, `mwr64Header`
* `TxWrapper.arbitrator`, `TxWrapper.mainSm`, `TxWrapper.next`
-/

namespace LeapPlatforms

namespace PcieCsr

/-! ### Requests -/

/-- A memory request: a length in DWords, with 0 for 1024, a tag and an address. -/
structure MemReq where
  len : BitVec 10
  tag : BitVec 8
  addr : BitVec 64
  deriving DecidableEq, Inhabited

/-- The side registers of a register read, as the receiver took them from its header. -/
structure Mrd32Req where
  tc : BitVec 3
  td : BitVec 1
  ep : BitVec 1
  attr : BitVec 2
  len : BitVec 10
  rid : BitVec 16
  tag : BitVec 8
  be : BitVec 4
  addr : BitVec 32
  deriving DecidableEq, Inhabited

/-- The input signals. -/
structure TxIn where
  trnTdstRdyN : Bool
  cfgCompleterId : BitVec 16
  cpldStart : Bool
  mrd32ReqData : BitVec 32
  mrd32Req : Mrd32Req
  mrd64ReqStart : Bool
  mrd64Req : MemReq
  mwr64Start : Bool
  mwr64 : MemReq
  f2hFifoValid : Bool
  f2hFifoData : BitVec 64
  deriving Inhabited

/-! ### Registers -/

/-- The states of the machine. -/
inductive PcieTxState
  | cpldQw1
  | cpldQwLast
  | mrd64ReqQw1
  | mrd64ReqQwLast
  | mwr64Qw1
  | mwr64Qwn
  | mwr64QwLast
  | rst
  deriving DecidableEq

/-- What the arbiter chose. -/
inductive TxSel
  | doTxCpld
  | doTxMrd64Req
  | doTxMwr64
  | doNothing
  deriving DecidableEq

/-- The registers of the arbiter: its choice and the copies of the input ports. -/
structure Arbiter where
  txSelFlag : TxSel := .doNothing
  priorityCounter : BitVec 4 := 0
  mrd32ReqLenC : BitVec 10 := 0
  mrd32ReqDataC : BitVec 32 := 0
  mrd64ReqC : MemReq := ⟨0, 0, 0⟩
  mwr64C : MemReq := ⟨0, 0, 0⟩
  deriving DecidableEq

/-- The registers of the main state machine. -/
structure TxSm where
  pcieTxState : PcieTxState := .rst
  trnTd : BitVec 64 := 0
  trnTremN : BitVec 8 := 0
  trnTsofN : Bool := true
  trnTeofN : Bool := true
  trnTsrcRdyN : Bool := true
  cpldFinish : Bool := true
  mwr64Finish : Bool := true
  mwr64LenRem : BitVec 10 := 0
  f2hFifoRen : Bool := false
  f2hDataTmp : BitVec 64 := 0
  f2hDataTmpValid : Bool := false
  mrd64ReqFinish : Bool := true
  txBusy : Bool := false
  deriving DecidableEq

/-- All registers of the transmitter; the defaults are the values after a reset. -/
structure TxWrapper where
  arb : Arbiter := {}
  cpldStartAck : Bool := false
  mrd64ReqStartAck : Bool := false
  mwr64StartAck : Bool := false
  sm : TxSm := {}
  deriving DecidableEq

/-! ### Headers -/

def pcieCpldFmtType : BitVec 7 := 0b1001010#7

def pcieMrd64FmtType : BitVec 7 := 0b0100000#7

def pcieMwr64FmtType : BitVec 7 := 0b1100000#7

/-- The byte count of a completion: the span of the enabled bytes. -/
def calcBe (be : BitVec 4) : BitVec 12 :=
  if be = 0b1001#4 ∨ be = 0b1011#4 ∨ be = 0b1101#4 ∨ be = 0b1111#4 then 4
  else if be = 0b0101#4 ∨ be = 0b0111#4 ∨ be = 0b1010#4 ∨ be = 0b1110#4 then 3
  else if be = 0b0011#4 ∨ be = 0b0110#4 ∨ be = 0b1100#4 then 2
  else 1

/-- The lower address of a completion: the first enabled byte. -/
def calcLaddr (be : BitVec 4) (addr : BitVec 32) : BitVec 7 :=
  if be = 0b0010#4 ∨ be = 0b0110#4 ∨ be = 0b1010#4 ∨ be = 0b1110#4 then
    addr.extractLsb' 2 5 ++ 0b01#2
  else if be = 0b0100#4 ∨ be = 0b1100#4 then addr.extractLsb' 2 5 ++ 0b10#2
  else if be = 0b1000#4 then addr.extractLsb' 2 5 ++ 0b11#2
  else addr.extractLsb' 2 5 ++ 0b00#2

/-- The first quadword of a completion. -/
def cpldHeader (r : Mrd32Req) (lenC : BitVec 10) (completerId : BitVec 16) : BitVec 64 :=
  0#1 ++ pcieCpldFmtType ++ 0#1 ++ r.tc ++ 0#4 ++ r.td ++ r.ep ++ r.attr ++ 0#2 ++ lenC ++
    completerId ++ 0#3 ++ 0#1 ++ calcBe r.be

/-- The second quadword of a completion, with its one DWord of data. -/
def cpldLast (r : Mrd32Req) (dataC : BitVec 32) : BitVec 64 :=
  r.rid ++ r.tag ++ 0#1 ++ calcLaddr r.be r.addr ++ dataC

/-- The first quadword of a memory read request. -/
def mrd64Header (r : MemReq) (completerId : BitVec 16) : BitVec 64 :=
  0#1 ++ pcieMrd64FmtType ++ 0#1 ++ 0#3 ++ 0#4 ++ 0#1 ++ 0#1 ++ 0b10#2 ++ 0#2 ++ r.len ++
    completerId ++ r.tag ++ 0b1111#4 ++ 0b1111#4

/-- The first quadword of a memory write. -/
def mwr64Header (r : MemReq) (completerId : BitVec 16) : BitVec 64 :=
  0#1 ++ pcieMwr64FmtType ++ 0#1 ++ 0#3 ++ 0#4 ++ 0#1 ++ 0#1 ++ 0b00#2 ++ 0#2 ++ r.len ++
    completerId ++ 0#8 ++ 0b1111#4 ++ 0b1111#4

/-- The second quadword of a memory request. -/
def addrQw (r : MemReq) : BitVec 64 := r.addr.extractLsb' 2 62 ++ 0b00#2

/-- A quadword with its halves swapped. -/
def swapHalves (w : BitVec 64) : BitVec 64 := w.extractLsb' 0 32 ++ w.extractLsb' 32 32

theorem cpldHeader_fmt (r : Mrd32Req) (lenC : BitVec 10) (completerId : BitVec 16) :
    (cpldHeader r lenC completerId).extractLsb' 56 7 = pcieCpldFmtType := by
  rw [cpldHeader]
  iterate 12 rw [BitVec.extractLsb'_append_eq_of_le (by decide)]
  rw [BitVec.extractLsb'_append_eq_of_add_le (by decide), BitVec.extractLsb'_eq_self]

theorem mrd64Header_fmt (r : MemReq) (completerId : BitVec 16) :
    (mrd64Header r completerId).extractLsb' 56 7 = pcieMrd64FmtType := by
  rw [mrd64Header]
  iterate 12 rw [BitVec.extractLsb'_append_eq_of_le (by decide)]
  rw [BitVec.extractLsb'_append_eq_of_add_le (by decide), BitVec.extractLsb'_eq_self]

theorem mwr64Header_fmt (r : MemReq) (completerId : BitVec 16) :
    (mwr64Header r completerId).extractLsb' 56 7 = pcieMwr64FmtType := by
  rw [mwr64Header]
  iterate 12 rw [BitVec.extractLsb'_append_eq_of_le (by decide)]
  rw [BitVec.extractLsb'_append_eq_of_add_le (by decide), BitVec.extractLsb'_eq_self]

theorem mrd64Header_len (r : MemReq) (completerId : BitVec 16) :
    (mrd64Header r completerId).extractLsb' 32 10 = r.len := by
  rw [mrd64Header]
  iterate 4 rw [BitVec.extractLsb'_append_eq_of_le (by decide)]
  exact BitVec.extractLsb'_append_eq_right

theorem mwr64Header_len (r : MemReq) (completerId : BitVec 16) :
    (mwr64Header r completerId).extractLsb' 32 10 = r.len := by
  rw [mwr64Header]
  iterate 4 rw [BitVec.extractLsb'_append_eq_of_le (by decide)]
  exact BitVec.extractLsb'_append_eq_right

/-- How many DWords a length code stands for. -/
def dwords (len : BitVec 10) : ℕ := if len = 0 then 1024 else len.toNat

theorem dwords_pos (len : BitVec 10) : 0 < dwords len := by
  rw [dwords]
  split
  · exact Nat.succ_pos 1023
  · rename_i h
    exact Nat.pos_of_ne_zero fun h0 => h (BitVec.eq_of_toNat_eq h0)

/-- A quadword for the endpoint, with its framing. -/
structure Beat where
  td : BitVec 64
  tsofN : Bool
  teofN : Bool
  deriving DecidableEq

/-- The quadword on the output register. The endpoint takes it in a clock in which it is ready. -/
def TxWrapper.offered (s : TxWrapper) : List Beat :=
  if s.sm.trnTsrcRdyN then [] else [⟨s.sm.trnTd, s.sm.trnTsofN, s.sm.trnTeofN⟩]

/-! ### Processes -/

namespace Arbiter

variable (a : Arbiter) (i : TxIn)

/-- Take the read request. -/
def takeMrd64 : Arbiter := { a with mrd64ReqC := i.mrd64Req, txSelFlag := .doTxMrd64Req }

/-- Take the write request. -/
def takeMwr64 : Arbiter := { a with mwr64C := i.mwr64, txSelFlag := .doTxMwr64 }

/-- Choose and latch: completions first, then reads and writes by the priority counter. -/
def choose : Arbiter :=
  if i.cpldStart then
    { a with
      mrd32ReqLenC := i.mrd32Req.len, mrd32ReqDataC := i.mrd32ReqData, txSelFlag := .doTxCpld }
  else if i.mrd64ReqStart then
    if i.mwr64Start then
      { (if a.priorityCounter.getLsbD 3 then a.takeMwr64 i else a.takeMrd64 i) with
        priorityCounter := a.priorityCounter + 1 }
    else { a.takeMrd64 i with priorityCounter := 0 }
  else if i.mwr64Start then { a.takeMwr64 i with priorityCounter := 0 }
  else { a with txSelFlag := .doNothing }

variable {a i}

/-- A write is chosen when one is asked for, and latched. -/
theorem choose_doTxMwr64 (h : (a.choose i).txSelFlag = .doTxMwr64) :
    i.mwr64Start = true ∧ (a.choose i).mwr64C = i.mwr64 := by
  rw [choose] at h ⊢
  split at h
  · cases h
  · split at h
    · split at h
      · rename_i hmwr
        split at h
        · simp_all [takeMwr64]
        · simp [takeMrd64] at h
      · simp [takeMrd64] at h
    · split at h
      · simp_all [takeMwr64]
      · cases h

/-- So is a read request. -/
theorem choose_doTxMrd64Req (h : (a.choose i).txSelFlag = .doTxMrd64Req) :
    i.mrd64ReqStart = true ∧ (a.choose i).mrd64ReqC = i.mrd64Req := by
  rw [choose] at h ⊢
  split at h
  · cases h
  · split at h
    · split at h
      · split at h
        · simp [takeMwr64] at h
        · simp_all [takeMrd64]
      · simp_all [takeMrd64]
    · split at h
      · simp [takeMwr64] at h
      · cases h

/-- And a completion. -/
theorem choose_doTxCpld (h : (a.choose i).txSelFlag = .doTxCpld) :
    i.cpldStart = true ∧ (a.choose i).mrd32ReqLenC = i.mrd32Req.len ∧
      (a.choose i).mrd32ReqDataC = i.mrd32ReqData := by
  rw [choose] at h ⊢
  split at h
  · simp_all
  · split at h
    · split at h
      · split at h
        · simp [takeMwr64] at h
        · simp [takeMrd64] at h
      · simp [takeMrd64] at h
    · split at h
      · simp [takeMwr64] at h
      · cases h

end Arbiter

namespace TxWrapper

variable (s : TxWrapper) (i : TxIn)

/-- The arbiter. -/
def arbitrator : Arbiter :=
  match s.sm.pcieTxState with
  | .cpldQwLast | .mwr64QwLast | .mrd64ReqQwLast => s.arb.choose i
  | .rst => if s.arb.txSelFlag = .doNothing then s.arb.choose i else s.arb
  | _ => s.arb

/-- The three acknowledgements: the machine rests and takes this kind of request. -/
def startAck (sel : TxSel) : Bool := s.sm.pcieTxState = .rst ∧ s.arb.txSelFlag = sel

/-- The machine rests: start the TLP that the arbiter chose. -/
def mainRst : TxSm :=
  match s.arb.txSelFlag with
  | .doTxCpld =>
    { s.sm with
      trnTsofN := false, trnTeofN := true, trnTsrcRdyN := false, trnTremN := 0
      trnTd := cpldHeader i.mrd32Req s.arb.mrd32ReqLenC i.cfgCompleterId
      cpldFinish := false, txBusy := true, pcieTxState := .cpldQw1 }
  | .doTxMrd64Req =>
    { s.sm with
      trnTsofN := false, trnTeofN := true, trnTsrcRdyN := false, trnTremN := 0
      trnTd := mrd64Header s.arb.mrd64ReqC i.cfgCompleterId
      mrd64ReqFinish := false, txBusy := true, pcieTxState := .mrd64ReqQw1 }
  | .doTxMwr64 =>
    { s.sm with
      trnTsofN := false, trnTeofN := true, trnTsrcRdyN := false, trnTremN := 0
      trnTd := mwr64Header s.arb.mwr64C i.cfgCompleterId
      -- the live length, not the copy
      mwr64LenRem := i.mwr64.len
      mwr64Finish := false, txBusy := true, pcieTxState := .mwr64Qw1 }
  | .doNothing =>
    { s.sm with
      trnTsofN := true, trnTeofN := true, trnTsrcRdyN := true, trnTremN := 0
      trnTd := 0, txBusy := false, pcieTxState := .rst }

/-- A payload quadword of a memory write. -/
def mainQwn : TxSm :=
  if i.trnTdstRdyN = false then
    if i.f2hFifoValid then
      { s.sm with
        trnTd := swapHalves (if s.sm.f2hDataTmpValid then s.sm.f2hDataTmp else i.f2hFifoData)
        f2hDataTmpValid := false
        trnTsrcRdyN := false
        mwr64LenRem := s.sm.mwr64LenRem - 2
        trnTeofN := decide (s.sm.mwr64LenRem ≠ 2)
        trnTremN := if s.sm.mwr64LenRem = 2 then 0 else 0xff
        f2hFifoRen := decide (s.sm.mwr64LenRem ≠ 2)
        pcieTxState := if s.sm.mwr64LenRem = 2 then .mwr64QwLast else .mwr64Qwn }
    else
      { s.sm with trnTsrcRdyN := true, trnTeofN := true, trnTremN := 0xff, f2hFifoRen := true }
  else
    { s.sm with
      f2hDataTmp :=
        if i.f2hFifoValid ∧ s.sm.f2hDataTmpValid = false then i.f2hFifoData else s.sm.f2hDataTmp
      f2hDataTmpValid := i.f2hFifoValid || s.sm.f2hDataTmpValid
      trnTsrcRdyN := false
      f2hFifoRen := false }

/-- The main state machine. -/
def mainSm : TxSm :=
  match s.sm.pcieTxState with
  | .rst => s.mainRst i
  | .cpldQw1 =>
    if i.trnTdstRdyN = false then
      { s.sm with
        trnTsofN := true, trnTeofN := false, trnTsrcRdyN := false, trnTremN := 0
        trnTd := cpldLast i.mrd32Req s.arb.mrd32ReqDataC
        pcieTxState := .cpldQwLast }
    else s.sm
  | .cpldQwLast =>
    if i.trnTdstRdyN = false then
      { s.sm with
        trnTsrcRdyN := true, trnTsofN := true, trnTeofN := true
        cpldFinish := true, txBusy := false, pcieTxState := .rst }
    else s.sm
  | .mwr64Qw1 =>
    if i.trnTdstRdyN = false then
      { s.sm with
        trnTsofN := true, trnTsrcRdyN := false, f2hFifoRen := true
        trnTd := addrQw s.arb.mwr64C
        pcieTxState := .mwr64Qwn }
    else s.sm
  | .mwr64Qwn => s.mainQwn i
  | .mwr64QwLast =>
    if i.trnTdstRdyN = false then
      { s.sm with
        trnTsrcRdyN := true, trnTeofN := true, trnTsofN := true, trnTremN := 0xff, trnTd := 0
        mwr64Finish := true, txBusy := false, pcieTxState := .rst }
    else s.sm
  | .mrd64ReqQw1 =>
    if i.trnTdstRdyN = false then
      { s.sm with
        trnTsofN := true, trnTeofN := false, trnTsrcRdyN := false, trnTremN := 0
        trnTd := addrQw s.arb.mrd64ReqC
        pcieTxState := .mrd64ReqQwLast }
    else s.sm
  | .mrd64ReqQwLast =>
    if i.trnTdstRdyN = false then
      { s.sm with
        trnTsrcRdyN := true, trnTeofN := true, trnTsofN := true, trnTremN := 0xff, trnTd := 0
        mrd64ReqFinish := true, txBusy := false, pcieTxState := .rst }
    else s.sm

/-- A rising clock edge. -/
def next : TxWrapper where
  arb := s.arbitrator i
  cpldStartAck := s.startAck .doTxCpld
  mrd64ReqStartAck := s.startAck .doTxMrd64Req
  mwr64StartAck := s.startAck .doTxMwr64
  sm := s.mainSm i

/-- Outside of the payload a stall keeps the machine as it is. -/
theorem mainSm_stall (hstall : i.trnTdstRdyN = true) (hrst : s.sm.pcieTxState ≠ .rst)
    (hqwn : s.sm.pcieTxState ≠ .mwr64Qwn) : s.mainSm i = s.sm := by
  have hready : ¬ i.trnTdstRdyN = false := by simp [hstall]
  rw [mainSm]
  cases hstate : s.sm.pcieTxState with
  | rst => exact absurd hstate hrst
  | mwr64Qwn => exact absurd hstate hqwn
  | _ => exact if_neg hready

variable {s i}

/-- When the machine comes to rest, or stays there, the arbiter has just chosen. -/
theorem choose_of_rst (h : (s.mainSm i).pcieTxState = .rst) :
    s.arbitrator i = s.arb.choose i ∧ s.sm.pcieTxState ≠ .cpldQw1 ∧
      s.sm.pcieTxState ≠ .mrd64ReqQw1 ∧ s.sm.pcieTxState ≠ .mwr64Qw1 := by
  rw [mainSm] at h
  rw [arbitrator]
  cases hstate : s.sm.pcieTxState with
  | rst =>
    rw [hstate, mainRst] at h
    cases hsel : s.arb.txSelFlag with
    | doNothing => simp
    | _ => simp [hsel] at h
  | cpldQwLast | mrd64ReqQwLast | mwr64QwLast => simp
  | mwr64Qwn =>
    rw [hstate, mainQwn] at h
    simp only at h
    split at h
    · split at h
      · simp only at h
        split at h <;> cases h
      · simp [hstate] at h
    · simp [hstate] at h
  | _ =>
    rw [hstate] at h
    simp only at h
    split at h <;> simp [hstate] at h

/-- A request that is acknowledged starts its TLP. -/
theorem mainSm_of_startAck {sel : TxSel} (h : s.startAck sel = true) :
    s.sm.pcieTxState = .rst ∧ s.arb.txSelFlag = sel := by
  simpa [startAck] using h

end TxWrapper

end PcieCsr

end LeapPlatforms
