import LeapPlatforms.PcieCsr.HostAccess
import LeapPlatforms.PcieCsr.RegisterFile

/-!
# Register accesses through the whole channel

The receiver shows an access for one clock; the host machine takes it when it rests, does it, and
asks the transmitter for a completion; the transmitter sends it among the TLPs of the DMAs. The
FPGA uses the other port of the block RAM, and its own system CSR.

## Main definitions

* `HostSide`, `HostClock`, `HostSide.next` — the receiver, the registers and the transmitter
* `HostSide.registers`, `HostSide.events` — the registers as one object
* `HostSide.Calm` — what is asked of the surroundings
* `HostSide.Running`

## Main results

* `HostSide.registers_next`
* `HostSide.Running.next`
-/

namespace LeapPlatforms

namespace PcieCsr

open Handing TxWrapper

/-! ### The machine -/

/-- The receiver, the host machine, the registers and the transmitter. Beside them stand the header
behind which the receiver is, the interface to the endpoint, the accesses that have arrived, what
has happened to the registers, and how often an interrupt was acknowledged and a soft reset asked
for. -/
structure HostSide (B : CsrBram) where
  rx : RxSide := {}
  header : BitVec 64 := 0
  csr : CsrHostCtrl := {}
  bar0 : PcieBar0 := {}
  bram : B.State := B.init
  csrH2fReg0 : BitVec 32 := 0
  csrF2hReg0 : BitVec 32 := 0x0a0b0c0d
  tx : TxWrapper := {}
  monitor : Monitor := {}
  arrived : List Access := []
  history : List RegEvent := []
  intrAcks : ℕ := 0
  softRsts : ℕ := 0

/-- What surrounds it in a clock. The request for a completion in `tx` is not used. -/
structure HostClock where
  rx : RxClock
  tx : TxIn
  hwChnlRst : Bool
  /-- The port of the FPGA at the block RAM. -/
  fpga : BramPort
  /-- What the FPGA writes to its system CSR. -/
  csrInF2hReg0 : Option (BitVec 32)
  pcieBar0RstAck : Bool

/-- The operation that an access asks for. -/
def Access.op : Access → RegOp
  | .read r => .read (regOf r.addr)
  | .write addr data => .write (regOf addr) data

/-- What happens when an operation is done. -/
def RegOp.event (f : RegFile) (rstAck : Bool) : RegOp → RegEvent
  | .write r v => .write r v
  | .read r => .read r rstAck (f.read r rstAck)

/-- What it returns. -/
def RegOp.value? (f : RegFile) (rstAck : Bool) : RegOp → Option (BitVec 32)
  | .write _ _ => none
  | .read r => some (f.read r rstAck)

namespace HostSide

variable {B : CsrBram} (s : HostSide B) (i : HostClock)

def csrIn : CsrHostIn where
  hwChnlRst := i.hwChnlRst
  mrd32ReqAddr := s.rx.rx.mrd32Req.addr
  csrRdStart := s.rx.rx.csrRdStart
  mwr32Addr := s.rx.rx.mwr32Addr
  mwr32Data := s.rx.rx.mwr32Data
  csrWrStart := s.rx.rx.csrWrStart
  cpldStartAck := s.tx.cpldStartAck
  cpldFinish := s.tx.sm.cpldFinish
  bar0RdData := s.bar0.rdDO
  bramDout := B.doutb s.bram

def bar0In : Bar0In where
  rdAI := s.csr.bar0RdAddr
  wrAI := s.csr.bar0WrAddr
  wrDI := s.csr.bar0WrData
  wrEnI := s.csr.bar0WrEn
  pcieCsrOutF2hReg0 := s.csrF2hReg0
  pcieBar0RstAck := i.pcieBar0RstAck

def txIn : TxIn :=
  { i.tx with
    cpldStart := s.csr.cpldStart, mrd32ReqData := s.csr.mrd32ReqData
    mrd32Req := s.rx.rx.mrd32Req }

/-- The port of the host at the block RAM. -/
def hostPort : BramPort := ⟨s.csr.bramAddr, s.csr.bramDin, s.csr.bramWen⟩

/-- The registers as one object. -/
def registers : RegFile where
  regular := B.contents s.bram
  h2fReg0 := if s.bar0.pcieCsrInH2fReg0WrEn then s.bar0.pcieCsrInH2fReg0 else s.csrH2fReg0
  f2hReg0 := s.csrF2hReg0
  intrAcks := s.intrAcks + s.bar0.intrHostAck.toNat
  softRst := s.bar0.softRstReg
  softRsts := s.softRsts + s.bar0.pcieBar0RstSig.toNat

/-- What the FPGA does to the registers. -/
def fpgaEvents : List RegEvent :=
  (if i.fpga.wen then [.fpgaWrite i.fpga.addr i.fpga.din] else []) ++
    (i.csrInF2hReg0.map .fpgaReg0).toList

/-- What happens to the registers in a clock. -/
def events : List RegEvent :=
  (s.csr.unserved.map fun op => op.event s.registers i.pcieBar0RstAck).toList ++ fpgaEvents i

/-- A rising clock edge. -/
def next : HostSide B where
  rx := s.rx.next i.rx
  header := (s.rx.headerTaken i.rx).getD s.header
  csr := s.csr.next (s.csrIn i)
  bar0 := s.bar0.next (s.bar0In i)
  bram := B.next s.bram i.fpga s.hostPort
  csrH2fReg0 :=
    if i.hwChnlRst then 0
    else if s.bar0.pcieCsrInH2fReg0WrEn then s.bar0.pcieCsrInH2fReg0
    else s.csrH2fReg0
  csrF2hReg0 := if i.hwChnlRst then 0x0a0b0c0d else i.csrInF2hReg0.getD s.csrF2hReg0
  tx := s.tx.next (s.txIn i)
  monitor := s.monitor.watchAll (s.tx.put (s.txIn i))
  arrived := s.arrived ++ (s.rx.arrival i.rx s.header).toList
  history := s.history ++ s.events i
  intrAcks := s.intrAcks + s.bar0.intrHostAck.toNat
  softRsts := s.softRsts + s.bar0.pcieBar0RstSig.toNat

/-- There is no reset, the TLPs of accesses have two quadwords, and the FPGA does not write the word
of the block RAM that the host is at. -/
structure Calm : Prop where
  rst : i.hwChnlRst = false
  plain : i.rx.Plain
  write : s.csr.bramWen = true → ¬ i.fpga.Writes s.csr.bramAddr
  read : s.csr.csrSt = .readBram → s.csr.csrRdDelay = false → ¬ i.fpga.Writes s.csr.bramAddr

/-! ### The registers -/

/-- The strobes of BAR0 last for one clock. -/
structure Strobes : Prop where
  intr : s.bar0.intrHostAck = true → s.csr.bar0WrAddr = 0x02 ∧ s.csr.bar0WrEn = false
  rst : s.bar0.pcieBar0RstSig = true → s.csr.bar0WrAddr = 0x03 ∧ s.csr.bar0WrEn = false

end HostSide

/-- What is in the block RAM after a clock. -/
theorem CsrBram.contents_next (B : CsrBram) {s : B.State} {a b : BramPort}
    (h : b.wen = true → ¬ a.Writes b.addr) (x : BitVec 8) :
    B.contents (B.next s a b) x =
      if a.Writes x then a.din else if b.Writes x then b.din else B.contents s x := by
  by_cases ha : a.Writes x
  · rw [if_pos ha, B.contents_a s a b x ha]
    rintro ⟨hwen, rfl⟩
    exact h hwen ha
  · rw [if_neg ha]
    by_cases hb : b.Writes x
    · rw [if_pos hb, B.contents_b s a b x ha hb]
    · rw [if_neg hb, B.contents_keep s a b x ha hb]

namespace PcieBar0

variable {s : PcieBar0} {i : Bar0In}

/-- The FPGA is told of an acknowledgement in the clock behind its write. -/
theorem next_intrHostAck (h : s.intrHostAck = true → i.wrAI = 0x02) :
    (s.next i).intrHostAck = decide (i.wrEnI = true ∧ i.wrAI = 0x02) := by
  rw [PcieBar0.next]
  by_cases h2 : i.wrAI = 0x02
  · rw [h2]
    simp
  · have hack : s.intrHostAck = false := by
      by_contra hack
      exact h2 (h (by simpa using hack))
    simp only [h2, and_false, decide_false, if_false]
    split
    · exact hack
    · split
      · exact hack
      · rfl

theorem next_pcieBar0RstSig (h : s.pcieBar0RstSig = true → i.wrAI = 0x03) :
    (s.next i).pcieBar0RstSig = decide (i.wrEnI = true ∧ i.wrAI = 0x03) := by
  rw [PcieBar0.next]
  by_cases h3 : i.wrAI = 0x03
  · rw [h3]
    simp
  · have hsig : s.pcieBar0RstSig = false := by
      by_contra hsig
      exact h3 (h (by simpa using hsig))
    simp only [h3, and_false, decide_false, if_false]
    split
    · exact hsig
    · split
      · exact hsig
      · rfl

/-- The system CSR towards the FPGA, behind its register. -/
theorem next_h2fReg0 (c : BitVec 32) :
    (if (s.next i).pcieCsrInH2fReg0WrEn then (s.next i).pcieCsrInH2fReg0
      else if s.pcieCsrInH2fReg0WrEn then s.pcieCsrInH2fReg0 else c) =
      if i.wrEnI = true ∧ i.wrAI = 0x00 then i.wrDI
      else if s.pcieCsrInH2fReg0WrEn then s.pcieCsrInH2fReg0 else c := by
  rw [PcieBar0.next]
  by_cases h0 : i.wrAI = 0x00
  · rw [if_pos h0]
    cases i.wrEnI <;> simp [h0]
  · simp only [h0, and_false, if_false]
    split
    · cases s.pcieCsrInH2fReg0WrEn <;> rfl
    · split
      · cases s.pcieCsrInH2fReg0WrEn <;> rfl
      · rfl

end PcieBar0

namespace HostSide

variable {B : CsrBram} {s : HostSide B} {i : HostClock}

/-- What the host does to the registers. -/
theorem apply_unserved (hsound : s.csr.Sound) :
    (s.csr.unserved.map fun op => op.event s.registers i.pcieBar0RstAck).toList.foldl
      RegFile.apply s.registers =
      { s.registers with
        regular := fun x =>
          if s.hostPort.Writes x then s.csr.bramDin else s.registers.regular x
        h2fReg0 :=
          if s.csr.bar0WrEn = true ∧ s.csr.bar0WrAddr = 0x00 then s.csr.bar0WrData
          else s.registers.h2fReg0
        intrAcks := s.registers.intrAcks +
          if s.csr.bar0WrEn = true ∧ s.csr.bar0WrAddr = 0x02 then 1 else 0
        softRst :=
          if s.csr.bar0WrEn = true ∧ s.csr.bar0WrAddr = 0x03 then s.csr.bar0WrData
          else s.registers.softRst
        softRsts := s.registers.softRsts +
          if s.csr.bar0WrEn = true ∧ s.csr.bar0WrAddr = 0x03 then 1 else 0 } := by
  have hwrites : ∀ x, s.hostPort.Writes x ↔ s.csr.bramWen = true ∧ s.csr.bramAddr = x :=
    fun _ => Iff.rfl
  by_cases hst : s.csr.csrSt = .write
  · have hen := hsound.write hst
    rw [CsrHostCtrl.unserved, hst]
    cases hwen : s.csr.bramWen with
    | true =>
      rw [hwen] at hen
      show s.registers.write ⟨true, s.csr.bramAddr⟩ s.csr.bramDin = _
      have hregular : Function.update s.registers.regular s.csr.bramAddr s.csr.bramDin =
          fun x => if s.hostPort.Writes x then s.csr.bramDin else s.registers.regular x := by
        funext x
        by_cases hx : x = s.csr.bramAddr
        · subst hx
          rw [Function.update_self, if_pos ((hwrites _).mpr ⟨hwen, rfl⟩)]
        · rw [Function.update_of_ne hx, if_neg fun hw => hx ((hwrites x).mp hw).2.symm]
      rw [RegFile.write_regular, hregular]
      simp [hen]
    | false =>
      rw [hwen] at hen
      show s.registers.write ⟨false, s.csr.bar0WrAddr⟩ s.csr.bar0WrData = _
      rw [RegFile.write_bar0]
      simp [hwrites, hwen, hen]
  · obtain ⟨hwen, hen⟩ := hsound.rest hst
    have hsame : (s.csr.unserved.map fun op =>
        op.event s.registers i.pcieBar0RstAck).toList.foldl RegFile.apply s.registers =
        s.registers := by
      rw [CsrHostCtrl.unserved]
      cases hst' : s.csr.csrSt with
      | write => exact absurd hst' hst
      | readBram | readBar0 => cases s.csr.csrRdDelay <;> rfl
      | _ => rfl
    rw [hsame]
    simp [hwrites, hwen, hen]

/-- And what the FPGA does. -/
theorem apply_fpgaEvents (f : RegFile) : (fpgaEvents i).foldl RegFile.apply f =
    { f with
      regular := fun x => if i.fpga.Writes x then i.fpga.din else f.regular x
      f2hReg0 := i.csrInF2hReg0.getD f.f2hReg0 } := by
  have hregular : (if i.fpga.wen then Function.update f.regular i.fpga.addr i.fpga.din
      else f.regular) = fun x => if i.fpga.Writes x then i.fpga.din else f.regular x := by
    funext x
    cases hwen : i.fpga.wen with
    | true =>
      by_cases hx : x = i.fpga.addr
      · subst hx
        rw [if_pos rfl, Function.update_self, if_pos ⟨hwen, rfl⟩]
      · rw [if_pos rfl, Function.update_of_ne hx, if_neg fun hw : i.fpga.Writes x => hx hw.2.symm]
    | false =>
      rw [if_neg Bool.false_ne_true, if_neg fun hw => absurd (hwen.symm.trans hw.1) (by decide)]
  rw [← hregular, fpgaEvents]
  cases i.fpga.wen <;> cases i.csrInF2hReg0 <;> rfl

/-- **What happens to the registers** is what the clock does to them. -/
theorem registers_next (hsound : s.csr.Sound) (hstrobes : s.Strobes) (hcalm : s.Calm i) :
    (s.next i).registers = (s.events i).foldl RegFile.apply s.registers := by
  have hregular : B.contents (B.next s.bram i.fpga s.hostPort) = fun x =>
      if i.fpga.Writes x then i.fpga.din
      else if s.hostPort.Writes x then s.csr.bramDin else B.contents s.bram x :=
    funext fun x => B.contents_next hcalm.write x
  have hintr := PcieBar0.next_intrHostAck (s := s.bar0) (i := s.bar0In i)
    fun h => (hstrobes.intr h).1
  have hrst := PcieBar0.next_pcieBar0RstSig (s := s.bar0) (i := s.bar0In i)
    fun h => (hstrobes.rst h).1
  have hsoft := PcieBar0.next_softRstReg (s := s.bar0) (i := s.bar0In i)
  have hh2f := PcieBar0.next_h2fReg0 (s := s.bar0) (i := s.bar0In i) s.csrH2fReg0
  have hnat : ∀ p : Prop, ∀ [Decidable p], (decide p).toNat = if p then 1 else 0 := by
    intro p _
    by_cases hp : p <;> simp [hp]
  rw [events, List.foldl_append, apply_unserved hsound, apply_fpgaEvents]
  refine RegFile.ext hregular ?_ ?_ ?_ hsoft ?_
  · show (if _ then _ else if i.hwChnlRst then _ else _) = _
    rw [hcalm.rst]
    exact hh2f
  · show (if i.hwChnlRst then _ else _) = _
    rw [hcalm.rst]
    rfl
  · show s.intrAcks + _ + (s.bar0.next (s.bar0In i)).intrHostAck.toNat = _
    rw [hintr, hnat]
    rfl
  · show s.softRsts + _ + (s.bar0.next (s.bar0In i)).pcieBar0RstSig.toNat = _
    rw [hrst, hnat]
    rfl

/-- The strobes of BAR0 end with the write. -/
theorem Strobes.next (h : s.Strobes) (hsound : s.csr.Sound) (hcalm : s.Calm i) :
    (s.next i).Strobes := by
  have hintr := PcieBar0.next_intrHostAck (s := s.bar0) (i := s.bar0In i) fun h' => (h.intr h').1
  have hrst := PcieBar0.next_pcieBar0RstSig (s := s.bar0) (i := s.bar0In i) fun h' => (h.rst h').1
  have hend : s.csr.bar0WrEn = true →
      (s.next i).csr.bar0WrAddr = s.csr.bar0WrAddr ∧ (s.next i).csr.bar0WrEn = false := by
    intro hen
    have hst : s.csr.csrSt = .write := by
      by_contra hst
      exact absurd ((hsound.rest hst).2.symm.trans hen) (by decide)
    show (s.csr.next _).bar0WrAddr = _ ∧ (s.csr.next _).bar0WrEn = false
    rw [CsrHostCtrl.next, show (s.csrIn i).hwChnlRst = false from hcalm.rst, hst]
    exact ⟨rfl, rfl⟩
  refine ⟨fun h' => ?_, fun h' => ?_⟩
  · obtain ⟨hen, haddr⟩ := of_decide_eq_true (hintr.symm.trans h')
    exact ⟨(hend hen).1.trans haddr, (hend hen).2⟩
  · obtain ⟨hen, haddr⟩ := of_decide_eq_true (hrst.symm.trans h')
    exact ⟨(hend hen).1.trans haddr, (hend hen).2⟩

/-- What happens to the registers is right where it stands. -/
theorem legalFrom_events (regular : BitVec 8 → BitVec 32) :
    (regFiles regular).LegalFrom s.registers (s.events i) := by
  have hfpga : ∀ f, (regFiles regular).LegalFrom f (fpgaEvents i) := by
    intro f
    rw [fpgaEvents]
    cases i.fpga.wen with
    | true => cases i.csrInF2hReg0 <;> simp [Sequential.LegalFrom, regFiles, RegFile.Returns]
    | false => cases i.csrInF2hReg0 <;> simp [Sequential.LegalFrom, regFiles, RegFile.Returns]
  refine Sequential.LegalFrom.append ?_ (hfpga _)
  cases s.csr.unserved with
  | none => trivial
  | some op => cases op <;> exact ⟨by first | rfl | trivial, trivial⟩

/-! ### Operations and their data -/

theorem ops_fpgaEvents : (fpgaEvents i).filterMap RegEvent.op? = [] := by
  rw [fpgaEvents]
  cases i.fpga.wen <;> cases i.csrInF2hReg0 <;> rfl

theorem values_fpgaEvents : (fpgaEvents i).filterMap RegEvent.value? = [] := by
  rw [fpgaEvents]
  cases i.fpga.wen <;> cases i.csrInF2hReg0 <;> rfl

/-- The operation that is done. -/
theorem ops_events : (s.events i).filterMap RegEvent.op? = s.csr.unserved.toList := by
  rw [events, List.filterMap_append, ops_fpgaEvents, List.append_nil]
  cases s.csr.unserved with
  | none => rfl
  | some op => cases op <;> rfl

/-- What a read returns. -/
theorem values_events : (s.events i).filterMap RegEvent.value? =
    (s.csr.unserved.bind fun op => op.value? s.registers i.pcieBar0RstAck).toList := by
  rw [events, List.filterMap_append, values_fpgaEvents, List.append_nil]
  cases s.csr.unserved with
  | none => rfl
  | some op => cases op <;> rfl

variable (s) in
/-- What was read and is about to be asked for. -/
def sampled : Option (BitVec 32) := s.csr.sampled s.bar0.rdDO (B.doutb s.bram)

/-- **What is read is the value of the register.** -/
theorem sampled_next (hsound : s.csr.Sound) (hcalm : s.Calm i) : (s.next i).sampled =
    s.csr.unserved.bind fun op => op.value? s.registers i.pcieBar0RstAck := by
  have hsampled := CsrHostCtrl.sampled_next (i := s.csrIn i) hsound hcalm.rst (s.next i).bar0.rdDO
    (B.doutb (s.next i).bram)
  rw [sampled]
  show (s.csr.next (s.csrIn i)).sampled _ _ = _
  rw [hsampled, CsrHostCtrl.unserved]
  cases hst : s.csr.csrSt with
  | write => cases s.csr.bramWen <;> rfl
  | readBram =>
    cases hdelay : s.csr.csrRdDelay with
    | true => rfl
    | false =>
      have hwen : s.csr.bramWen = false := (hsound.rest (by rw [hst]; decide)).1
      have hout : B.doutb (s.next i).bram = B.contents s.bram s.csr.bramAddr :=
        B.doutb_next s.bram i.fpga s.hostPort (hcalm.read hst hdelay) hwen
      show some _ = some _
      rw [hout]
      rfl
  | readBar0 =>
    cases hdelay : s.csr.csrRdDelay with
    | true => rfl
    | false =>
      have hout : (s.next i).bar0.rdDO = s.bar0.read (s.bar0In i) := PcieBar0.next_rdDO
      show some _ = some _
      rw [hout]
      rfl
  | _ => rfl

/-- The machine is shown what the receiver shows. -/
theorem shown_csrIn : CsrHostCtrl.shown (s.csrIn i) = s.rx.rx.pulse.map Access.op := by
  rw [CsrHostCtrl.shown, RxWrapper.pulse]
  show (if s.rx.rx.csrWrStart = true then _ else if s.rx.rx.csrRdStart = true then _ else _) = _
  cases s.rx.rx.csrWrStart
  · cases s.rx.rx.csrRdStart <;> rfl
  · rfl

/-- The transmitter is offered what the machine asks for. -/
theorem cpldOffer_txIn (hsound : s.csr.Sound) :
    (s.txIn i).cpldOffer = s.csr.requester.offer := by
  rw [hsound.offer]
  rfl

/-! ### Runs -/

/-- The data of the completions on the interface. -/
def served (s : HostSide B) : List (BitVec 32) := s.monitor.cplds.map fun t => loDw t.2

/-- What holds in every clock in which no access is missed. -/
structure Running (s : HostSide B) : Prop where
  passing : Passing s.rx s.header s.rx.rx.pulse
  sound : s.csr.Sound
  strobes : s.Strobes
  framed : s.tx.Framed
  watched : Watched s.tx s.monitor
  signals : s.tx.CpldSignals
  /-- What is shown, or taken and not done, is behind. -/
  order : s.history.filterMap RegEvent.op? ++
    (s.csr.unserved.toList ++ (s.rx.rx.pulse.map Access.op).toList) = s.arrived.map Access.op
  legal : (regFiles (B.contents B.init)).Legal s.history
  registers : (regFiles (B.contents B.init)).after s.history = s.registers
  /-- What was read was asked for, but for the read that is under way. -/
  agrees : ∃ asked, Handover.Agrees ⟨s.tx.cpldServer, s.csr.requester, asked, s.served⟩ ∧
    s.history.filterMap RegEvent.value? = asked ++ s.sampled.toList

theorem loDw_cpldLast (r : Mrd32Req) (v : BitVec 32) : loDw (cpldLast r v) = v :=
  BitVec.extractLsb'_append_eq_right

theorem Running.next (h : s.Running) (hcalm : s.Calm i)
    (hfree : s.rx.rx.pulse ≠ none → s.csr.csrSt = .rst) : (s.next i).Running := by
  have hpassing := h.passing.next hcalm.plain
  have hpulse : (s.next i).rx.rx.pulse = s.rx.arrival i.rx s.header := hpassing.pulse_eq
  have hserves := h.signals.next (i := s.txIn i)
  have hunserved : (s.next i).csr.unserved = s.rx.rx.pulse.map Access.op := by
    have hnext := CsrHostCtrl.unserved_next (i := s.csrIn i) h.sound hcalm.rst
    rw [shown_csrIn] at hnext
    refine hnext.trans ?_
    by_cases hst : s.csr.csrSt = .rst
    · rw [if_pos hst]
    · have hnone : s.rx.rx.pulse = none := by
        by_contra hsome
        exact hst (hfree hsome)
      rw [if_neg hst, hnone]
      rfl
  have hcplds : (s.next i).monitor.cplds = _ := cplds_next (i := s.txIn i) h.framed h.watched
  obtain ⟨asked, hagrees, hvalues⟩ := h.agrees
  refine ⟨?_, h.sound.next hcalm.rst, h.strobes.next h.sound hcalm, h.framed.next,
    (h.watched.next h.framed).1, hserves.signals, ?_, h.legal.append ?_, ?_,
    asked ++ s.sampled.toList, ?_, ?_⟩
  · rw [hpulse]
    exact hpassing
  · show (s.history ++ s.events i).filterMap _ ++ _ =
      (s.arrived ++ (s.rx.arrival i.rx s.header).toList).map _
    rw [hunserved, hpulse, List.filterMap_append, ops_events, List.map_append, ← h.order]
    cases s.rx.arrival i.rx s.header <;> simp
  · rw [h.registers]
    exact legalFrom_events _
  · show (regFiles _).after (s.history ++ s.events i) = _
    rw [Sequential.after_append, h.registers]
    exact (registers_next h.sound h.strobes hcalm).symm
  · have hserver := hserves.step
    rw [cpldOffer_txIn h.sound] at hserver
    have hrequester := CsrHostCtrl.requester_next (s := s.csr) (i := s.csrIn i) hcalm.rst
    have hack : s.tx.cpldServer.ack = (s.csrIn i).cpldStartAck := h.signals.ack.symm
    have hfinish : s.tx.cpldServer.finished = (s.csrIn i).cpldFinish := h.signals.finish.symm
    rw [← hack, ← hfinish] at hrequester
    have hstep := hagrees.step (.mk hserver hrequester)
    have hserved : (s.next i).served =
        s.served ++ if s.tx.Completes (s.txIn i) then [s.tx.arb.mrd32ReqDataC] else [] := by
      rw [served, hcplds, List.map_append]
      split
      · rw [List.map_singleton, loDw_cpldLast]
        rfl
      · rfl
    rw [hserved]
    exact hstep
  · show (s.history ++ s.events i).filterMap _ = _
    rw [List.filterMap_append, values_events, hvalues, sampled_next h.sound hcalm]

theorem running_start : ({} : HostSide B).Running where
  passing := passing_start
  sound := CsrHostCtrl.sound_start
  strobes := ⟨by rintro ⟨⟩, by rintro ⟨⟩⟩
  framed := ⟨fun _ => rfl, fun h => absurd rfl h, (by rintro ⟨⟩), fun k => by cases k <;> rfl,
    fun k => by cases k <;> rfl⟩
  watched := ⟨(by rintro ⟨⟩), (by rintro ⟨⟩), (by rintro ⟨⟩), fun _ _ _ => rfl⟩
  signals := ⟨rfl, rfl⟩
  order := rfl
  legal := trivial
  registers := rfl
  agrees := ⟨[], .other (by rintro ⟨⟩) rfl, rfl⟩

end HostSide

end PcieCsr

end LeapPlatforms
