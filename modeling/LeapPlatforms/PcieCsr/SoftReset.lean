import LeapPlatforms.PcieCsr.RegisterFile

/-!
# The soft reset

The host asks for a reset by a write to register 3 of BAR0, and reads the register until it is zero.
The value that was written stays in the register; it is the acknowledgement of the FPGA, which the
reset controller shows for one clock, that makes it read as zero.

## Main definitions

* `RstController`, `RstController.next`
* `SoftReset`, `SoftReset.next` — the host machine, BAR0 and the reset controller
* `SoftReset.run`, `SoftReset.readDone` — a run, and what a read of the register returns
* `SoftReset.expected` — what it should return

## Main results

* `SoftReset.Sound.next`
* `SoftReset.reads_expected_iff`
* `SoftReset.reads_stale` — a read long behind the acknowledgement
-/

namespace LeapPlatforms

namespace PcieCsr

/-! ### The reset controller -/

/-- The states of the two processes of a soft reset. -/
inductive SoftrstState
  | idle
  | ready
  | busy
  deriving DecidableEq

/-- The states of the process that initialises the channel. -/
inductive InitState
  | idle
  | ready
  | waitForChannelRst
  | waitForRespAck
  deriving DecidableEq

/-- The input signals. -/
structure RstIn where
  pcieBar0RstSig : Bool
  rstInitReqEn : Bool
  rstInitRespEn : Bool
  rstSoftrstReqEn : Bool
  rstSoftrstRespEn : Bool

/-- The registers; the defaults are the values after a reset. -/
structure RstController where
  pcieBar0RstAck : Bool := false
  rstInitReqRdy : Bool := false
  rstInitRespRdy : Bool := false
  hwChnlRstSig : Bool := false
  rstSoftrstReqRdy : Bool := false
  rstSoftrstRespRdy : Bool := false
  softrstReqState : SoftrstState := .idle
  softrstRespState : SoftrstState := .idle
  initState : InitState := .idle
  deriving DecidableEq

namespace RstController

variable (s : RstController) (i : RstIn)

/-- A request of the host goes to the FPGA. -/
def nextSoftrstReq : RstController :=
  match s.softrstReqState with
  | .idle => { s with rstSoftrstReqRdy := false, softrstReqState := .ready }
  | .ready =>
    if i.pcieBar0RstSig then { s with rstSoftrstReqRdy := true, softrstReqState := .busy } else s
  | .busy =>
    if i.rstSoftrstReqEn then { s with rstSoftrstReqRdy := false, softrstReqState := .ready } else s

/-- A response of the FPGA goes to the host, for one clock. -/
def nextSoftrstResp : RstController :=
  match s.softrstRespState with
  | .idle =>
    { s with pcieBar0RstAck := false, rstSoftrstRespRdy := true, softrstRespState := .ready }
  | .ready =>
    if i.rstSoftrstRespEn then
      { s with pcieBar0RstAck := true, rstSoftrstRespRdy := false, softrstRespState := .busy }
    else s
  | .busy =>
    { s with pcieBar0RstAck := false, rstSoftrstRespRdy := true, softrstRespState := .ready }

/-- The channel is reset for one clock. -/
def nextInit : RstController :=
  match s.initState with
  | .idle => { s with rstInitReqRdy := true, rstInitRespRdy := false, initState := .ready }
  | .ready =>
    if i.rstInitReqEn then
      { s with rstInitReqRdy := false, hwChnlRstSig := true, initState := .waitForChannelRst }
    else s
  | .waitForChannelRst =>
    { s with hwChnlRstSig := false, rstInitRespRdy := true, initState := .waitForRespAck }
  | .waitForRespAck =>
    if i.rstInitRespEn then
      { s with rstInitRespRdy := false, rstInitReqRdy := true, initState := .ready }
    else s

/-- A rising clock edge. The processes have no register in common. -/
def next : RstController := ((s.nextSoftrstReq i).nextSoftrstResp i).nextInit i

/-- A response is taken. -/
def accepts : Bool := decide (s.softrstRespState = .ready) && i.rstSoftrstRespEn

/-- The acknowledgement is shown in the clock behind, and only there. -/
theorem next_pcieBar0RstAck (h : s.pcieBar0RstAck = true → s.softrstRespState = .busy) :
    (s.next i).pcieBar0RstAck = s.accepts i ∧
      ((s.next i).pcieBar0RstAck = true → (s.next i).softrstRespState = .busy) := by
  -- Only the process of the response has these registers.
  have hack : (s.next i).pcieBar0RstAck = (s.nextSoftrstResp i).pcieBar0RstAck ∧
      (s.next i).softrstRespState = (s.nextSoftrstResp i).softrstRespState := by
    have hinit : ∀ t : RstController, (t.nextInit i).pcieBar0RstAck = t.pcieBar0RstAck ∧
        (t.nextInit i).softrstRespState = t.softrstRespState := by
      intro t
      unfold nextInit
      cases t.initState with
      | idle | waitForChannelRst => exact ⟨rfl, rfl⟩
      | ready => cases i.rstInitReqEn <;> exact ⟨rfl, rfl⟩
      | waitForRespAck => cases i.rstInitRespEn <;> exact ⟨rfl, rfl⟩
    have hreq : (s.nextSoftrstReq i).pcieBar0RstAck = s.pcieBar0RstAck ∧
        (s.nextSoftrstReq i).softrstRespState = s.softrstRespState := by
      unfold nextSoftrstReq
      cases s.softrstReqState with
      | idle => exact ⟨rfl, rfl⟩
      | ready => cases i.pcieBar0RstSig <;> exact ⟨rfl, rfl⟩
      | busy => cases i.rstSoftrstReqEn <;> exact ⟨rfl, rfl⟩
    rw [next, (hinit _).1, (hinit _).2, nextSoftrstResp, nextSoftrstResp, hreq.2]
    cases s.softrstRespState with
    | idle | busy => exact ⟨rfl, rfl⟩
    | ready =>
      cases i.rstSoftrstRespEn with
      | true => exact ⟨rfl, rfl⟩
      | false => exact hreq
  rw [hack.1, hack.2, nextSoftrstResp, accepts]
  cases hst : s.softrstRespState with
  | idle => exact ⟨rfl, by rintro ⟨⟩⟩
  | ready =>
    cases i.rstSoftrstRespEn with
    | true => exact ⟨rfl, fun _ => rfl⟩
    | false =>
      have hno : s.pcieBar0RstAck = false := by
        by_contra hack
        exact absurd (hst.symm.trans (h (by simpa using hack))) (by decide)
      exact ⟨hno, fun hack => absurd (hno.symm.trans hack) (by decide)⟩
  | busy => exact ⟨rfl, by rintro ⟨⟩⟩

end RstController

/-! ### The machine -/

/-- The host machine, the registers of BAR0 and the reset controller. Beside them stand what the
host has written to register 3 last, and whether a response was taken since. -/
structure SoftReset where
  csr : CsrHostCtrl := {}
  bar0 : PcieBar0 := {}
  rst : RstController := {}
  written : BitVec 32 := 0
  acked : Bool := false
  deriving DecidableEq

/-- What surrounds it in a clock. -/
structure SoftResetIn where
  mrd32ReqAddr : BitVec 32 := 0
  csrRdStart : Bool := false
  mwr32Addr : BitVec 32 := 0
  mwr32Data : BitVec 32 := 0
  csrWrStart : Bool := false
  cpldStartAck : Bool := false
  cpldFinish : Bool := false
  bramDout : BitVec 32 := 0
  pcieCsrOutF2hReg0 : BitVec 32 := 0
  rstInitReqEn : Bool := false
  rstInitRespEn : Bool := false
  rstSoftrstReqEn : Bool := false
  rstSoftrstRespEn : Bool := false

/-- The soft reset register. -/
def softRst : Reg := ⟨false, 0x03⟩

namespace SoftReset

variable (s : SoftReset) (i : SoftResetIn)

def csrIn : CsrHostIn where
  hwChnlRst := s.rst.hwChnlRstSig
  mrd32ReqAddr := i.mrd32ReqAddr
  csrRdStart := i.csrRdStart
  mwr32Addr := i.mwr32Addr
  mwr32Data := i.mwr32Data
  csrWrStart := i.csrWrStart
  cpldStartAck := i.cpldStartAck
  cpldFinish := i.cpldFinish
  bar0RdData := s.bar0.rdDO
  bramDout := i.bramDout

def bar0In : Bar0In where
  rdAI := s.csr.bar0RdAddr
  wrAI := s.csr.bar0WrAddr
  wrDI := s.csr.bar0WrData
  wrEnI := s.csr.bar0WrEn
  pcieCsrOutF2hReg0 := i.pcieCsrOutF2hReg0
  pcieBar0RstAck := s.rst.pcieBar0RstAck

def rstIn : RstIn where
  pcieBar0RstSig := s.bar0.pcieBar0RstSig
  rstInitReqEn := i.rstInitReqEn
  rstInitRespEn := i.rstInitRespEn
  rstSoftrstReqEn := i.rstSoftrstReqEn
  rstSoftrstRespEn := i.rstSoftrstRespEn

/-- What the host writes to the soft reset register. -/
def written? : Option (BitVec 32) :=
  match s.csr.unserved with
  | some (.write r v) => if r = softRst then some v else none
  | _ => none

/-- A rising clock edge. A response that is taken while the register is written is one to an earlier
request. -/
def next : SoftReset where
  csr := s.csr.next (s.csrIn i)
  bar0 := s.bar0.next (s.bar0In i)
  rst := s.rst.next (s.rstIn i)
  written := s.written?.getD s.written
  acked := if s.written?.isSome then false else s.acked || s.rst.accepts (s.rstIn i)

/-- What a read of the register should return: the value that was written, and zero behind the
acknowledgement. -/
def expected : BitVec 32 := if s.acked then 0 else s.written

/-- The data that the machine takes for a completion. -/
def taken : Option (BitVec 32) :=
  if s.rst.hwChnlRstSig then none else s.csr.sampled s.bar0.rdDO i.bramDout

/-- The machine clock by clock. -/
def run (ins : ℕ → SoftResetIn) : ℕ → SoftReset
  | 0 => {}
  | k + 1 => (run ins k).next (ins k)

/-- What the read of the soft reset register that is done in clock `k` returns. -/
def readDone (ins : ℕ → SoftResetIn) (k : ℕ) : Option (BitVec 32) :=
  if (run ins k).csr.unserved = some (.read softRst) then (run ins (k + 1)).taken (ins (k + 1))
  else none

/-! ### Runs -/

variable {s} {i}

/-- What holds in every clock. -/
structure Sound (s : SoftReset) : Prop where
  csr : s.csr.Sound
  written : s.written = s.bar0.softRstReg
  busy : s.rst.pcieBar0RstAck = true → s.rst.softrstRespState = .busy
  /-- A response is behind the last write, unless the write has just been done. -/
  acked : s.rst.pcieBar0RstAck = true → s.acked = true ∨ s.csr.csrSt = .rst

theorem sound_start : Sound {} :=
  ⟨CsrHostCtrl.sound_start, rfl, (by rintro ⟨⟩), by rintro ⟨⟩⟩

/-- The register is written with the strobe of BAR0. -/
theorem written?_eq (h : s.csr.Sound) : s.written? =
    if s.csr.bar0WrEn = true ∧ s.csr.bar0WrAddr = 0x03 then some s.csr.bar0WrData else none := by
  by_cases hst : s.csr.csrSt = .write
  · have hen := h.write hst
    rw [written?, CsrHostCtrl.unserved, hst]
    cases hwen : s.csr.bramWen with
    | true => simp [hen, hwen, softRst]
    | false => simp [hen, hwen, softRst]
  · have hen : s.csr.bar0WrEn = false := (h.rest hst).2
    rw [written?, CsrHostCtrl.unserved, hen]
    cases hst' : s.csr.csrSt with
    | write => exact absurd hst' hst
    | readBram | readBar0 => cases s.csr.csrRdDelay <;> rfl
    | _ => rfl

/-- Behind a write the machine rests. -/
theorem rst_of_written (hw : s.written?.isSome) : (s.csr.next (s.csrIn i)).csrSt = .rst := by
  have hst : s.csr.csrSt = .write := by
    rw [written?, CsrHostCtrl.unserved] at hw
    cases hst : s.csr.csrSt with
    | write => rfl
    | readBram | readBar0 => cases hdelay : s.csr.csrRdDelay <;> simp [hst, hdelay] at hw
    | _ => simp [hst] at hw
  rw [CsrHostCtrl.next, hst]
  split <;> rfl

theorem readBar0_of_unserved (h : s.csr.unserved = some (.read softRst)) :
    s.csr.csrSt = .readBar0 ∧ s.csr.bar0RdAddr = 0x03 := by
  rw [CsrHostCtrl.unserved] at h
  cases hst : s.csr.csrSt with
  | write => cases hwen : s.csr.bramWen <;> simp [hst, hwen] at h
  | readBram => cases hdelay : s.csr.csrRdDelay <;> simp [hst, hdelay, softRst] at h
  | readBar0 =>
    cases hdelay : s.csr.csrRdDelay with
    | true => simp [hst, hdelay] at h
    | false => exact ⟨rfl, by simpa [hst, hdelay, softRst] using h⟩
  | _ => simp [hst] at h

theorem Sound.next (h : s.Sound) : (s.next i).Sound := by
  obtain ⟨hack, hbusy⟩ := s.rst.next_pcieBar0RstAck (s.rstIn i) h.busy
  refine ⟨?_, ?_, hbusy, fun hnow => ?_⟩
  · show (s.csr.next (s.csrIn i)).Sound
    cases hrst : s.rst.hwChnlRstSig with
    | true =>
      rw [CsrHostCtrl.next, csrIn, hrst]
      exact CsrHostCtrl.sound_start
    | false => exact h.csr.next hrst
  · show s.written?.getD s.written = (s.bar0.next (s.bar0In i)).softRstReg
    rw [PcieBar0.next_softRstReg, written?_eq h.csr, h.written]
    show Option.getD (if _ then _ else _) _ =
      if s.csr.bar0WrEn = true ∧ s.csr.bar0WrAddr = 0x03 then s.csr.bar0WrData
      else s.bar0.softRstReg
    split <;> rfl
  · have haccepts : s.rst.accepts (s.rstIn i) = true := hack.symm.trans hnow
    show (if _ then _ else _) = true ∨ (s.csr.next (s.csrIn i)).csrSt = .rst
    cases hw : s.written?.isSome with
    | true => exact Or.inr (rst_of_written hw)
    | false => exact Or.inl (by simp [haccepts])

theorem sound_run (ins : ℕ → SoftResetIn) (k : ℕ) : (run ins k).Sound := by
  induction k with
  | zero => exact sound_start
  | succ k ih => exact ih.next

/-- What a read returns: zero in the clock of the acknowledgement, and else what was written. -/
theorem readDone_eq {ins : ℕ → SoftResetIn} {k : ℕ} {v : BitVec 32}
    (hv : readDone ins k = some v) :
    v = (if (run ins k).rst.pcieBar0RstAck then 0 else (run ins k).written) ∧
      ((run ins k).rst.pcieBar0RstAck = true → (run ins k).acked = true) := by
  have h := sound_run ins k
  rw [readDone] at hv
  split at hv
  · next hread =>
    obtain ⟨hst, haddr⟩ : (run ins k).csr.csrSt = .readBar0 ∧ (run ins k).csr.bar0RdAddr = 0x03 :=
      readBar0_of_unserved hread
    refine ⟨?_, fun hack => (h.acked hack).resolve_right (by simp [hst])⟩
    -- The data comes out behind this clock.
    have hdone : (run ins (k + 1)).csr.sampled (run ins (k + 1)).bar0.rdDO
        (ins (k + 1)).bramDout = some v := by
      rw [taken] at hv
      split at hv
      · cases hv
      · exact hv
    have hrst : (run ins k).rst.hwChnlRstSig = false := by
      by_contra hrst
      have hnext : (run ins (k + 1)).csr = {} := by
        show (run ins k).csr.next _ = {}
        rw [CsrHostCtrl.next, csrIn, if_pos (by simpa using hrst)]
      rw [hnext] at hdone
      cases hdone
    have hsampled := CsrHostCtrl.sampled_next (i := (run ins k).csrIn (ins k)) h.csr hrst
      (run ins (k + 1)).bar0.rdDO (ins (k + 1)).bramDout
    rw [hread] at hsampled
    have hvalue : (run ins (k + 1)).bar0.rdDO = v :=
      Option.some.inj (hsampled.symm.trans hdone)
    rw [← hvalue, h.written]
    show ((run ins k).bar0.next _).rdDO = _
    rw [PcieBar0.next_rdDO, PcieBar0.read]
    simp [bar0In, haddr]
  · cases hv

/-- **The reads of the soft reset register return what they should** exactly when each of them that
is done behind the acknowledgement is done in the one clock in which the controller shows it, or
nothing but zero was written. -/
theorem reads_expected_iff (ins : ℕ → SoftResetIn) :
    (∀ k v, readDone ins k = some v → v = (run ins k).expected) ↔
      ∀ k, (readDone ins k).isSome → (run ins k).acked = true →
        (run ins k).rst.pcieBar0RstAck = true ∨ (run ins k).written = 0 := by
  constructor
  · intro h k hdone hacked
    obtain ⟨v, hv⟩ := Option.isSome_iff_exists.mp hdone
    have hzero : v = 0 := by simpa [expected, hacked] using h k v hv
    by_cases hnow : (run ins k).rst.pcieBar0RstAck = true
    · exact Or.inl hnow
    · right
      have hvalue := (readDone_eq hv).1
      rw [if_neg hnow, hzero] at hvalue
      exact hvalue.symm
  · intro h k v hv
    obtain ⟨hvalue, hnow⟩ := readDone_eq hv
    rw [hvalue, expected]
    by_cases hacked : (run ins k).acked = true
    · rw [if_pos hacked]
      rcases h k (by simp [hv]) hacked with hack | hzero
      · rw [if_pos hack]
      · simp [hzero]
    · rw [if_neg hacked, if_neg fun hack => hacked (hnow hack)]

/-- A reset is asked for, and acknowledged ten clocks behind; the register is read in clock 20. -/
def staleIns (k : ℕ) : SoftResetIn where
  csrWrStart := decide (k = 2)
  mwr32Addr := 0x0c
  mwr32Data := 0xffffffff
  csrRdStart := decide (k = 20)
  mrd32ReqAddr := 0x0c
  rstSoftrstReqEn := decide (k = 8)
  rstSoftrstRespEn := decide (k = 12)

/-- The host reads what it wrote, long behind the acknowledgement. -/
theorem reads_stale :
    (run staleIns 21).acked = true ∧ readDone staleIns 21 = some 0xffffffff ∧
      (run staleIns 21).expected = 0 := by
  decide

end SoftReset

end PcieCsr

end LeapPlatforms
