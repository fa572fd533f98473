import LeapPlatforms.Foundation.Histories
import LeapPlatforms.PcieCsr.CpldServer
import LeapPlatforms.PcieCsr.CsrHostCtrl

/-!
# The register file

To the host and to the FPGA the registers are one object, to which everything happens at once. The
host machine takes an operation in the clock in which it is shown to it, and does it in the clock
behind; for a read it is then a requester of completions.

## Main definitions

* `RegFile`, `RegOp`, `RegEvent`, `regFiles`
* `CsrHostCtrl.unserved` — the operation that was taken
* `CsrHostCtrl.requester` — the machine as a requester of completions

## Main results

* `CsrHostCtrl.unserved_next`
* `CsrHostCtrl.requester_next`
-/

namespace LeapPlatforms

namespace PcieCsr

open Handing

/-! ### The registers as one object -/

/-- The registers: the regular ones, and those of BAR0. The register of the interrupt controller
keeps nothing, and a soft reset is asked for beside the register that is written: of these, how
often. -/
@[ext]
structure RegFile where
  regular : BitVec 8 → BitVec 32
  h2fReg0 : BitVec 32
  f2hReg0 : BitVec 32
  intrAcks : ℕ
  softRst : BitVec 32
  softRsts : ℕ

namespace RegFile

variable (f : RegFile)

/-- The host writes a register. -/
def write (r : Reg) (v : BitVec 32) : RegFile :=
  if r.regular then { f with regular := Function.update f.regular r.index v }
  else if r.index = 0x00 then { f with h2fReg0 := v }
  else if r.index = 0x02 then { f with intrAcks := f.intrAcks + 1 }
  else if r.index = 0x03 then { f with softRst := v, softRsts := f.softRsts + 1 }
  else f

/-- The host reads a register; a soft reset that is acknowledged at the time is read as over. -/
def read (r : Reg) (rstAck : Bool) : BitVec 32 :=
  if r.regular then f.regular r.index
  else if r.index = 0x01 then f.f2hReg0
  else if r.index = 0x03 then if rstAck then 0 else f.softRst
  else 0

end RegFile

/-- An operation of the host. -/
inductive RegOp
  | write (r : Reg) (v : BitVec 32)
  | read (r : Reg)
  deriving DecidableEq

/-- The data of a read, where that of a register comes out. -/
def RegOp.data? (bar0RdData bramDout : BitVec 32) : RegOp → Option (BitVec 32)
  | .write _ _ => none
  | .read r => some (if r.regular then bramDout else bar0RdData)

/-- What happens to the registers. -/
inductive RegEvent
  | write (r : Reg) (v : BitVec 32)
  | read (r : Reg) (rstAck : Bool) (v : BitVec 32)
  /-- The FPGA writes a regular CSR. -/
  | fpgaWrite (index : BitVec 8) (v : BitVec 32)
  /-- The FPGA writes its system CSR. -/
  | fpgaReg0 (v : BitVec 32)
  deriving DecidableEq

namespace RegEvent

/-- The operation of the host. -/
def op? : RegEvent → Option RegOp
  | .write r v => some (.write r v)
  | .read r _ _ => some (.read r)
  | _ => none

/-- What the host reads. -/
def value? : RegEvent → Option (BitVec 32)
  | .read _ _ v => some v
  | _ => none

end RegEvent

namespace RegFile

/-- An event happens. -/
def apply (f : RegFile) : RegEvent → RegFile
  | .write r v => f.write r v
  | .read _ _ _ => f
  | .fpgaWrite index v => { f with regular := Function.update f.regular index v }
  | .fpgaReg0 v => { f with f2hReg0 := v }

/-- A read returns the value of its register. -/
def Returns (f : RegFile) : RegEvent → Prop
  | .read r rstAck v => v = f.read r rstAck
  | _ => True

variable (f : RegFile)

theorem write_regular (index : BitVec 8) (v : BitVec 32) :
    f.write ⟨true, index⟩ v = { f with regular := Function.update f.regular index v } := rfl

/-- A write to BAR0 in all fields. -/
theorem write_bar0 (index : BitVec 8) (v : BitVec 32) : f.write ⟨false, index⟩ v =
    { f with
      h2fReg0 := if index = 0x00 then v else f.h2fReg0
      intrAcks := f.intrAcks + if index = 0x02 then 1 else 0
      softRst := if index = 0x03 then v else f.softRst
      softRsts := f.softRsts + if index = 0x03 then 1 else 0 } := by
  rw [write, if_neg Bool.false_ne_true]
  by_cases h0 : index = 0x00
  · subst h0
    rfl
  by_cases h2 : index = 0x02
  · subst h2
    rfl
  by_cases h3 : index = 0x03
  · subst h3
    rfl
  simp only [if_neg h0, if_neg h2, if_neg h3, Nat.add_zero]

end RegFile

/-- The register file, from the contents of the block RAM on. -/
def regFiles (regular : BitVec 8 → BitVec 32) : Sequential RegFile RegEvent where
  start := ⟨regular, 0, 0x0a0b0c0d, 0, 0, 0⟩
  apply := RegFile.apply
  Right := RegFile.Returns

/-! ### The host machine -/

namespace CsrHostCtrl

/-- The operation that was taken, and is done in the next clock. -/
def unserved (s : CsrHostCtrl) : Option RegOp :=
  match s.csrSt with
  | .write =>
    some (if s.bramWen then .write ⟨true, s.bramAddr⟩ s.bramDin
      else .write ⟨false, s.bar0WrAddr⟩ s.bar0WrData)
  | .readBram => if s.csrRdDelay then none else some (.read ⟨true, s.bramAddr⟩)
  | .readBar0 => if s.csrRdDelay then none else some (.read ⟨false, s.bar0RdAddr⟩)
  | _ => none

/-- The operation that is shown to the machine. -/
def shown (i : CsrHostIn) : Option RegOp :=
  if i.csrWrStart then some (.write (regOf i.mwr32Addr) i.mwr32Data)
  else if i.csrRdStart then some (.read (regOf i.mrd32ReqAddr))
  else none

/-- The machine as a requester of completions, of which it shows the data. -/
def requester (s : CsrHostCtrl) : Requester (BitVec 32) :=
  match s.csrSt with
  | .readCpld => ⟨.asking, [s.mrd32ReqData]⟩
  | .readCpldFinish => ⟨.waiting, []⟩
  | _ => ⟨.idle, []⟩

/-- What was read, and is about to be asked for. -/
def sampled (s : CsrHostCtrl) (bar0RdData bramDout : BitVec 32) : Option (BitVec 32) :=
  match s.csrSt with
  | .readBram => if s.csrRdDelay then some bramDout else none
  | .readBar0 => if s.csrRdDelay then some bar0RdData else none
  | _ => none

/-- The strobes are those of the state. -/
structure Sound (s : CsrHostCtrl) : Prop where
  start : s.cpldStart = decide (s.csrSt = .readCpld)
  /-- A write is one of the block RAM or of BAR0. -/
  write : s.csrSt = .write → s.bar0WrEn = !s.bramWen
  rest : s.csrSt ≠ .write → s.bramWen = false ∧ s.bar0WrEn = false
  delay : s.csrRdDelay = true → s.csrSt = .readBram ∨ s.csrSt = .readBar0

theorem sound_start : Sound {} :=
  ⟨rfl, (by rintro ⟨⟩), fun _ => ⟨rfl, rfl⟩, by rintro ⟨⟩⟩

variable {s : CsrHostCtrl} {i : CsrHostIn}

theorem next_rst (h : i.hwChnlRst = false) (hst : s.csrSt = .rst) : s.next i = s.nextRst i := by
  rw [next, h, hst]
  rfl

/-- There is no delay where nothing is read. -/
theorem Sound.delay_eq (h : s.Sound) (hbram : s.csrSt ≠ .readBram) (hbar0 : s.csrSt ≠ .readBar0) :
    s.csrRdDelay = false := by
  by_contra hdelay
  rcases h.delay (by simpa using hdelay) with hst | hst
  · exact hbram hst
  · exact hbar0 hst

theorem Sound.nextRst (h : s.Sound) (hst : s.csrSt = .rst) : (s.nextRst i).Sound := by
  have hstart := h.start
  have hrest := h.rest (by rw [hst]; decide)
  have hdelay := h.delay_eq (by rw [hst]; decide) (by rw [hst]; decide)
  have hnot : ∀ {p : Prop}, s.csrRdDelay = true → p := fun hd =>
    absurd (hdelay.symm.trans hd) (by decide)
  rw [hst] at hstart
  rw [CsrHostCtrl.nextRst]
  split
  · split
    · exact ⟨hstart, fun _ => rfl, fun hne => absurd rfl hne, hnot⟩
    · exact ⟨hstart, fun _ => rfl, fun hne => absurd rfl hne, hnot⟩
  · split
    · split
      · exact ⟨hstart, (by rintro ⟨⟩), fun _ => hrest, fun _ => .inl rfl⟩
      · exact ⟨hstart, (by rintro ⟨⟩), fun _ => hrest, fun _ => .inr rfl⟩
    · exact h

theorem Sound.next (h : s.Sound) (hrst : i.hwChnlRst = false) : (s.next i).Sound := by
  have hstart := h.start
  have hrest := h.rest
  cases hst : s.csrSt with
  | rst =>
    rw [next_rst hrst hst]
    exact h.nextRst hst
  | write =>
    have hdelay := h.delay_eq (by rw [hst]; decide) (by rw [hst]; decide)
    rw [hst] at hstart
    rw [CsrHostCtrl.next, hrst, hst]
    exact ⟨hstart, (by rintro ⟨⟩), fun _ => ⟨rfl, rfl⟩,
      fun hd => absurd (hdelay.symm.trans hd) (by decide)⟩
  | readBram | readBar0 =>
    rw [hst] at hstart hrest
    have hrest' := hrest (by decide)
    rw [CsrHostCtrl.next, hrst, hst]
    simp only [Bool.false_eq_true, if_false]
    split
    · exact ⟨hstart, (by rintro ⟨⟩), fun _ => hrest', fun _ => by simp⟩
    · exact ⟨rfl, (by rintro ⟨⟩), fun _ => hrest', by rintro ⟨⟩⟩
  | readCpld | readCpldFinish =>
    have hdelay := h.delay_eq (by rw [hst]; decide) (by rw [hst]; decide)
    have hnot : ∀ {p : Prop}, s.csrRdDelay = true → p := fun hd =>
      absurd (hdelay.symm.trans hd) (by decide)
    rw [hst] at hstart hrest
    have hrest' := hrest (by decide)
    rw [CsrHostCtrl.next, hrst, hst]
    simp only [Bool.false_eq_true, if_false]
    split
    · exact ⟨by first | rfl | exact hstart, (by rintro ⟨⟩), fun _ => hrest', hnot⟩
    · exact h

/-- **An operation is taken in the clock in which it is shown**, and the one before was done. -/
theorem unserved_next (h : s.Sound) (hrst : i.hwChnlRst = false) :
    (s.next i).unserved = if s.csrSt = .rst then shown i else none := by
  cases hst : s.csrSt with
  | rst =>
    have hdelay := h.delay_eq (by rw [hst]; decide) (by rw [hst]; decide)
    rw [next_rst hrst hst, if_pos rfl, CsrHostCtrl.nextRst, shown]
    split
    · split
      · rename_i hreg
        rw [regOf, hreg]
        rfl
      · rename_i hreg
        rw [regOf, eq_false_of_ne_true hreg]
        rfl
    · split
      · split
        · rename_i hreg
          rw [regOf, hreg, unserved, hdelay]
          rfl
        · rename_i hreg
          rw [regOf, eq_false_of_ne_true hreg, unserved, hdelay]
          rfl
      · rw [unserved, hst]
  | write =>
    rw [CsrHostCtrl.next, hrst, hst]
    rfl
  | readBram | readBar0 =>
    rw [CsrHostCtrl.next, hrst, hst]
    simp only [Bool.false_eq_true, if_false, reduceCtorEq]
    split
    · rfl
    · rfl
  | readCpld | readCpldFinish =>
    rw [CsrHostCtrl.next, hrst, hst]
    simp only [Bool.false_eq_true, if_false, reduceCtorEq]
    split
    · rfl
    · rw [unserved, hst]


/-- The data of a read comes out behind the clock in which it is done. -/
theorem sampled_next (h : s.Sound) (hrst : i.hwChnlRst = false) (bar0RdData bramDout : BitVec 32) :
    (s.next i).sampled bar0RdData bramDout =
      s.unserved.bind fun op => op.data? bar0RdData bramDout := by
  cases hst : s.csrSt with
  | rst =>
    have hdelay := h.delay_eq (by rw [hst]; decide) (by rw [hst]; decide)
    rw [next_rst hrst hst, unserved, hst, CsrHostCtrl.nextRst]
    split
    · split
      · rfl
      · rfl
    · split
      · split
        · rw [sampled, hdelay]
          rfl
        · rw [sampled, hdelay]
          rfl
      · rw [sampled, hst]
        rfl
  | write =>
    rw [CsrHostCtrl.next, hrst, hst, unserved, hst]
    cases s.bramWen
    · rfl
    · rfl
  | readBram | readBar0 =>
    rw [CsrHostCtrl.next, hrst, hst, unserved, hst]
    cases s.csrRdDelay
    · rfl
    · rfl
  | readCpld | readCpldFinish =>
    rw [CsrHostCtrl.next, hrst, hst, unserved, hst]
    simp only [Bool.false_eq_true, if_false]
    split
    · rfl
    · rw [sampled, hst]
      rfl

/-- **The machine is a requester**: what was read is asked for. -/
theorem requester_next (hrst : i.hwChnlRst = false) :
    Requester.Step i.cpldStartAck i.cpldFinish s.requester (s.next i).requester
      (s.sampled i.bar0RdData i.bramDout).toList := by
  cases hst : s.csrSt with
  | rst =>
    have hidle : (s.next i).requester = ⟨.idle, []⟩ := by
      rw [next_rst hrst hst, CsrHostCtrl.nextRst]
      split
      · split
        · rfl
        · rfl
      · split
        · split
          · rfl
          · rfl
        · rw [requester, hst]
    rw [hidle, requester, sampled, hst]
    exact .rest
  | write =>
    rw [CsrHostCtrl.next, hrst, requester, sampled, hst]
    exact .rest
  | readBram | readBar0 =>
    rw [CsrHostCtrl.next, hrst, requester, sampled, hst]
    cases s.csrRdDelay with
    | false => exact .rest
    | true => exact .new (List.cons_ne_nil _ _)
  | readCpld =>
    rw [CsrHostCtrl.next, hrst, requester, sampled, hst]
    simp only [Bool.false_eq_true, if_false]
    cases hack : i.cpldStartAck with
    | false =>
      simp only [Bool.false_eq_true, if_false, requester, hst]
      exact .ask rfl
    | true => exact .acked rfl
  | readCpldFinish =>
    rw [CsrHostCtrl.next, hrst, requester, sampled, hst]
    simp only [Bool.false_eq_true, if_false]
    cases hfinish : i.cpldFinish with
    | false =>
      simp only [Bool.false_eq_true, if_false, requester, hst]
      exact .wait rfl
    | true => exact .stop rfl

/-- A read is under way from the clock on in which it is taken. -/
theorem reading_next (hrst : i.hwChnlRst = false) (h : (s.next i).csrSt = .readBram ∨
    (s.next i).csrSt = .readBar0 ∨ (s.next i).csrSt = .readCpld) :
    i.csrRdStart = true ∨ s.csrSt = .readBram ∨ s.csrSt = .readBar0 ∨ s.csrSt = .readCpld := by
  cases hst : s.csrSt with
  | rst =>
    left
    rw [next_rst hrst hst, CsrHostCtrl.nextRst] at h
    split at h
    · split at h
      · rcases h with h | h | h <;> cases h
      · rcases h with h | h | h <;> cases h
    · split at h
      · assumption
      · rw [hst] at h
        rcases h with h | h | h <;> cases h
  | write =>
    rw [CsrHostCtrl.next, hrst, hst] at h
    rcases h with h | h | h <;> cases h
  | readBram => exact .inr (.inl rfl)
  | readBar0 => exact .inr (.inr (.inl rfl))
  | readCpld => exact .inr (.inr (.inr rfl))
  | readCpldFinish =>
    rw [CsrHostCtrl.next, hrst, hst] at h
    simp only [Bool.false_eq_true, if_false] at h
    split at h
    · rcases h with h | h | h <;> cases h
    · rw [hst] at h
      rcases h with h | h | h <;> cases h

/-- A read waits for one clock, and is asked for. -/
theorem reads_next (hrst : i.hwChnlRst = false)
    (hst : s.csrSt = .readBram ∨ s.csrSt = .readBar0) :
    if s.csrRdDelay then (s.next i).csrSt = .readCpld
    else (s.next i).csrSt = s.csrSt ∧ (s.next i).csrRdDelay = true := by
  rcases hst with hst | hst
  · rw [CsrHostCtrl.next, hrst, hst]
    cases s.csrRdDelay
    · exact ⟨rfl, rfl⟩
    · rfl
  · rw [CsrHostCtrl.next, hrst, hst]
    cases s.csrRdDelay
    · exact ⟨rfl, rfl⟩
    · rfl

theorem readCpld_next (hrst : i.hwChnlRst = false) (hst : s.csrSt = .readCpld) :
    (s.next i).csrSt = if i.cpldStartAck then .readCpldFinish else .readCpld := by
  rw [CsrHostCtrl.next, hrst, hst]
  cases i.cpldStartAck
  · exact hst
  · rfl

theorem readCpldFinish_next (hrst : i.hwChnlRst = false) (hst : s.csrSt = .readCpldFinish) :
    (s.next i).csrSt = if i.cpldFinish then .rst else .readCpldFinish := by
  rw [CsrHostCtrl.next, hrst, hst]
  cases i.cpldFinish
  · exact hst
  · rfl

/-- What the machine shows to the transmitter. -/
theorem Sound.offer (h : s.Sound) :
    s.requester.offer = if s.cpldStart then some s.mrd32ReqData else none := by
  rw [h.start, requester, Requester.offer]
  cases s.csrSt <;> rfl

end CsrHostCtrl

end PcieCsr

end LeapPlatforms
