import LeapPlatforms.PcieCsr.TxServer

/-!
# The transmitter serves register reads

The transmitter is a server of completions as it is one of memory requests. What it latches of a
register read is the data; the other fields of a completion come from the registers of the receiver
as they are when its quadwords are built.

## Main definitions

* `Monitor.cplds` — the completions on the interface
* `TxWrapper.cpldServer` — the transmitter as a server of completions
* `TxWrapper.CpldShown` — the header of the completion that is being sent

## Main results

* `TxWrapper.cplds_next` — every clock is a step of the server, and the monitor sees what it serves
-/

namespace LeapPlatforms

namespace PcieCsr

open Handing

/-- The completions: two quadwords each. -/
def Monitor.cplds (m : Monitor) : List (BitVec 64 × BitVec 64) :=
  m.tlps.filter fun t => t.1.extractLsb' 56 7 = pcieCpldFmtType

/-- The data that a completion is asked for. -/
def TxIn.cpldOffer (i : TxIn) : Option (BitVec 32) :=
  if i.cpldStart then some i.mrd32ReqData else none

namespace TxWrapper

/-- The transmitter, as far as completions are concerned. -/
def cpldServer (s : TxWrapper) : Server (BitVec 32) :=
  match s.sm.pcieTxState with
  | .rst => if s.arb.txSelFlag = .doTxCpld then .latched s.arb.mrd32ReqDataC else .other
  | .cpldQw1 => .started s.arb.mrd32ReqDataC s.cpldStartAck
  | .cpldQwLast => .finishing
  | _ => .other

/-- The signals to the host machine are those of the server. -/
structure CpldSignals (s : TxWrapper) : Prop where
  ack : s.cpldStartAck = s.cpldServer.ack
  finish : s.sm.cpldFinish = s.cpldServer.finished

variable {s : TxWrapper} {i : TxIn} {m : Monitor}

/-- The second quadword of a completion is built. -/
def Completes (s : TxWrapper) (i : TxIn) : Prop :=
  s.sm.pcieTxState = .cpldQw1 ∧ i.trnTdstRdyN = false

instance : Decidable (s.Completes i) := inferInstanceAs (Decidable (_ ∧ _))

/-- At rest, the server is idle or has latched what was asked for. -/
theorem cpldServer_of_rst (hrst : (s.next i).sm.pcieTxState = .rst) :
    (s.next i).cpldServer = .other ∨
      ∃ v, (s.next i).cpldServer = .latched v ∧ i.cpldOffer = some v := by
  obtain ⟨hchoose, -⟩ := choose_of_rst (s := s) (i := i) hrst
  have harb : (s.next i).arb = s.arb.choose i := hchoose
  by_cases hsel : (s.next i).arb.txSelFlag = .doTxCpld
  · right
    obtain ⟨hstart, -, hdata⟩ := Arbiter.choose_doTxCpld (harb ▸ hsel)
    refine ⟨i.mrd32ReqData, ?_, if_pos hstart⟩
    rw [cpldServer, hrst]
    simp only
    rw [if_pos hsel, harb, hdata]
  · left
    rw [cpldServer, hrst]
    exact if_neg hsel

theorem cpldStartAck_next : (s.next i).cpldStartAck = s.startAck .doTxCpld := rfl

theorem not_completes (h : s.sm.pcieTxState ≠ .cpldQw1) : ¬ s.Completes i := fun hc => h hc.1

variable (s i) in
/-- A clock is a step of the server. -/
structure CpldServes : Prop where
  signals : (s.next i).CpldSignals
  step : Server.Step i.cpldOffer s.cpldServer (s.next i).cpldServer
    (if s.Completes i then [s.arb.mrd32ReqDataC] else [])

/-- The machine comes to rest, or stays there. -/
theorem cpldServes_of_rst (hrst : (s.next i).sm.pcieTxState = .rst)
    (hack : (s.next i).cpldStartAck = false) (hfinish : (s.next i).sm.cpldFinish = true)
    (hserver : s.cpldServer = .other ∨ s.cpldServer = .finishing)
    (hstate : s.sm.pcieTxState ≠ .cpldQw1) : s.CpldServes i := by
  have hother := cpldServer_of_rst hrst
  refine ⟨⟨?_, ?_⟩, ?_⟩
  · rw [hack]
    rcases hother with h | ⟨v, h, -⟩ <;> rw [h] <;> rfl
  · rw [hfinish]
    rcases hother with h | ⟨v, h, -⟩ <;> rw [h] <;> rfl
  · rw [if_neg (not_completes hstate)]
    rcases hserver with h | h <;> rcases hother with h' | ⟨v, h', hoffer⟩ <;> rw [h, h']
    · exact .rest
    · exact .latch hoffer
    · exact .finish
    · exact .finishLatch hoffer

/-- The machine is, and stays, busy with something else. -/
theorem cpldServes_of_other (h : s.CpldSignals) (hserver : s.cpldServer = .other)
    (hserver' : (s.next i).cpldServer = .other) (hack : (s.next i).cpldStartAck = false)
    (hfinish : (s.next i).sm.cpldFinish = s.sm.cpldFinish)
    (hstate : s.sm.pcieTxState ≠ .cpldQw1) : s.CpldServes i := by
  refine ⟨⟨?_, ?_⟩, ?_⟩
  · rw [hack, hserver']
    rfl
  · rw [hfinish, h.finish, hserver, hserver']
  · rw [if_neg (not_completes hstate), hserver, hserver']
    exact .rest

/-- The machine rests. -/
theorem CpldSignals.next_rst (h : s.CpldSignals) (hrst : s.sm.pcieTxState = .rst) :
    s.CpldServes i := by
  have hfinish := h.finish
  have hne : s.sm.pcieTxState ≠ .cpldQw1 := by rw [hrst]; decide
  have hsm : (s.next i).sm = s.mainRst i := by
    show s.mainSm i = _
    rw [mainSm, hrst]
  rw [cpldServer, hrst] at hfinish
  cases hsel : s.arb.txSelFlag with
  | doNothing =>
    rw [hsel] at hfinish
    refine cpldServes_of_rst ?_ ?_ ?_ (.inl ?_) hne
    · rw [hsm, mainRst, hsel]
    · rw [cpldStartAck_next, startAck, hsel]
      simp
    · rw [hsm, mainRst, hsel]
      exact hfinish
    · rw [cpldServer, hrst, hsel]
      rfl
  | doTxCpld =>
    have harb : (s.next i).arb = s.arb := by
      show s.arbitrator i = _
      rw [arbitrator, hrst, hsel]
      rfl
    have hserver' : (s.next i).cpldServer = .started s.arb.mrd32ReqDataC true := by
      rw [cpldServer, harb, cpldStartAck_next, startAck, hrst, hsel, hsm, mainRst, hsel]
      rfl
    refine ⟨⟨?_, ?_⟩, ?_⟩
    · rw [hserver', cpldStartAck_next, startAck, hrst, hsel]
      rfl
    · rw [hserver', hsm, mainRst, hsel]
      rfl
    · rw [if_neg (not_completes hne), hserver', cpldServer, hrst, hsel]
      exact .start
  | _ =>
    refine cpldServes_of_other h ?_ ?_ ?_ ?_ hne
    · rw [cpldServer, hrst, hsel]
      rfl
    · rw [cpldServer, hsm, mainRst, hsel]
    · rw [cpldStartAck_next, startAck, hsel]
      simp
    · rw [hsm, mainRst, hsel]

theorem CpldSignals.next_stall (h : s.CpldSignals) (hstall : i.trnTdstRdyN = true)
    (hrst : s.sm.pcieTxState ≠ .rst) (hqwn : s.sm.pcieTxState ≠ .mwr64Qwn) :
    s.CpldServes i := by
  have hsm : (s.next i).sm = s.sm := s.mainSm_stall i hstall hrst hqwn
  have hack : (s.next i).cpldStartAck = false := startAck_of_ne hrst
  have hnot : ¬ s.Completes i := fun hc => absurd (hstall.symm.trans hc.2) (by decide)
  have hfinish := h.finish
  rw [cpldServer] at hfinish
  cases hstate : s.sm.pcieTxState with
  | rst => exact absurd hstate hrst
  | cpldQw1 =>
    have harb : (s.next i).arb = s.arb := by
      show s.arbitrator i = _
      rw [arbitrator, hstate]
    have hserver' : (s.next i).cpldServer = .started s.arb.mrd32ReqDataC false := by
      rw [cpldServer, hsm, hstate, harb, hack]
    refine ⟨⟨?_, ?_⟩, ?_⟩
    · rw [hserver', hack]
      rfl
    · rw [hserver', hsm, hfinish, hstate]
      rfl
    · rw [if_neg hnot, hserver', cpldServer, hstate]
      exact .hold
  | cpldQwLast =>
    have hserver' : (s.next i).cpldServer = .finishing := by
      rw [cpldServer, hsm, hstate]
    refine ⟨⟨?_, ?_⟩, ?_⟩
    · rw [hserver', hack]
      rfl
    · rw [hserver', hsm, hfinish, hstate]
    · rw [if_neg hnot, hserver', cpldServer, hstate]
      exact .finishing
  | _ =>
    refine cpldServes_of_other h ?_ ?_ hack (by rw [hsm]) (by rw [hstate]; decide)
    · rw [cpldServer, hstate]
    · rw [cpldServer, hsm, hstate]

/-- The machine is at the payload of a memory write. -/
theorem CpldSignals.next_qwn (h : s.CpldSignals) (hqwn : s.sm.pcieTxState = .mwr64Qwn) :
    s.CpldServes i := by
  have hsm : (s.next i).sm = s.mainQwn i := by
    show s.mainSm i = _
    rw [mainSm, hqwn]
  have hstate : (s.next i).sm.pcieTxState = .mwr64Qwn ∨
      (s.next i).sm.pcieTxState = .mwr64QwLast := by
    rw [hsm, mainQwn]
    split
    · split
      · by_cases hlast : s.sm.mwr64LenRem = 2
        · exact .inr (if_pos hlast)
        · exact .inl (if_neg hlast)
      · exact .inl hqwn
    · exact .inl hqwn
  refine cpldServes_of_other h ?_ ?_ ?_ ?_ (by rw [hqwn]; decide)
  · rw [cpldServer, hqwn]
  · rw [cpldServer]
    rcases hstate with h' | h' <;> rw [h']
  · exact startAck_of_ne (by rw [hqwn]; decide)
  · rw [hsm, mainQwn]
    split
    · split <;> rfl
    · rfl

/-- The endpoint takes a quadword. -/
theorem CpldSignals.next_ready (h : s.CpldSignals) (hready : i.trnTdstRdyN = false)
    (hrst : s.sm.pcieTxState ≠ .rst) (hqwn : s.sm.pcieTxState ≠ .mwr64Qwn) :
    s.CpldServes i := by
  have hsm : (s.next i).sm = s.mainSm i := rfl
  have hack : (s.next i).cpldStartAck = false := startAck_of_ne hrst
  have hfinish := h.finish
  rw [cpldServer] at hfinish
  cases hstate : s.sm.pcieTxState with
  | rst => exact absurd hstate hrst
  | mwr64Qwn => exact absurd hstate hqwn
  | cpldQw1 =>
    have hserver' : (s.next i).cpldServer = .finishing := by
      rw [cpldServer, hsm, mainSm, hstate]
      simp [hready]
    refine ⟨⟨?_, ?_⟩, ?_⟩
    · rw [hserver', hack]
      rfl
    · rw [hstate] at hfinish
      rw [hserver', hsm, mainSm, hstate]
      simpa [hready, Server.finished] using hfinish
    · rw [if_pos ⟨hstate, hready⟩, hserver', cpldServer, hstate]
      exact .serve
  | cpldQwLast =>
    refine cpldServes_of_rst ?_ hack ?_ (.inr ?_) (by rw [hstate]; decide)
    · simp [hsm, mainSm, hstate, hready]
    · simp [hsm, mainSm, hstate, hready]
    · rw [cpldServer, hstate]
  | mwr64QwLast | mrd64ReqQwLast =>
    rw [hstate] at hfinish
    refine cpldServes_of_rst ?_ hack ?_ (.inl ?_) (by rw [hstate]; decide)
    · simp [hsm, mainSm, hstate, hready]
    · simpa [hsm, mainSm, hstate, hready, Server.finished] using hfinish
    · rw [cpldServer, hstate]
  | mwr64Qw1 | mrd64ReqQw1 =>
    refine cpldServes_of_other h ?_ ?_ hack ?_ (by rw [hstate]; decide)
    · rw [cpldServer, hstate]
    · rw [cpldServer, hsm, mainSm, hstate]
      simp [hready]
    · simp [hsm, mainSm, hstate, hready]

/-- **A clock is a step of the server.** -/
theorem CpldSignals.next (h : s.CpldSignals) : s.CpldServes i := by
  by_cases hrst : s.sm.pcieTxState = .rst
  · exact h.next_rst hrst
  · by_cases hqwn : s.sm.pcieTxState = .mwr64Qwn
    · exact h.next_qwn hqwn
    · cases hready : i.trnTdstRdyN with
      | true => exact h.next_stall hready hrst hqwn
      | false => exact h.next_ready hready hrst hqwn

/-! ### The monitor -/

theorem cplds_append (m : Monitor) (hd last : BitVec 64) :
    Monitor.cplds { header := none, tlps := m.tlps ++ [(hd, last)] } =
      m.cplds ++ if hd.extractLsb' 56 7 = pcieCpldFmtType then [(hd, last)] else [] := by
  by_cases h : hd.extractLsb' 56 7 = pcieCpldFmtType <;> simp [Monitor.cplds, h]

/-- A stall puts nothing on the interface. -/
theorem put_stall (hs : Framed s) (hstall : i.trnTdstRdyN = true)
    (hrst : s.sm.pcieTxState ≠ .rst) (hqwn : s.sm.pcieTxState ≠ .mwr64Qwn) : s.put i = [] :=
  if_pos ⟨hstall, hs.busy hrst hqwn⟩

/-- **The completions on the interface** are those that the server serves. -/
theorem cplds_next (hs : Framed s) (hm : Watched s m) :
    (m.watchAll (s.put i)).cplds = m.cplds ++ if s.Completes i then
      [(m.header.getD 0, cpldLast i.mrd32Req s.arb.mrd32ReqDataC)] else [] := by
  have hsm : (s.next i).sm = s.mainSm i := rfl
  have hnew : ∀ b : Beat, b.tsofN = false → (m.watchAll [b]).cplds = m.cplds := by
    intro b hb
    rw [Monitor.watchAll, List.foldl_cons, List.foldl_nil, Monitor.watch, if_pos hb]
    rfl
  have hnone : m.watchAll [] = m := rfl
  by_cases hrst : s.sm.pcieTxState = .rst
  · rw [if_neg (not_completes (by rw [hrst]; decide)), List.append_nil]
    have hput : s.put i = (s.next i).offered := by
      rw [put, if_neg]
      rintro ⟨-, hsrc⟩
      exact absurd ((hs.rest hrst).symm.trans hsrc) (by decide)
    rw [hput, offered, hsm, mainSm, hrst]
    cases hsel : s.arb.txSelFlag with
    | doNothing => simp [mainRst, hsel, hnone]
    | _ => simp [mainRst, hsel, hnew]
  by_cases hqwn : s.sm.pcieTxState = .mwr64Qwn
  · rw [if_neg (not_completes (by rw [hqwn]; decide)), List.append_nil, hm.watchAll_qwn hs hqwn]
  cases hready : i.trnTdstRdyN with
  | true =>
    have hnot : ¬ s.Completes i := fun hc => absurd (hready.symm.trans hc.2) (by decide)
    rw [put_stall hs hready hrst hqwn, if_neg hnot, List.append_nil, hnone]
  | false =>
    have hput : s.put i = (s.next i).offered := if_neg (by simp [hready])
    rw [hput, offered, hsm, mainSm]
    cases hstate : s.sm.pcieTxState with
    | rst => exact absurd hstate hrst
    | mwr64Qwn => exact absurd hstate hqwn
    | cpldQw1 =>
      obtain ⟨hd, hheader, hfmt⟩ := hm.cpld hstate
      simp [hready, Monitor.watchAll, Monitor.watch, hheader, cplds_append, hfmt, Completes, hstate]
    | mrd64ReqQw1 =>
      obtain ⟨id, hheader⟩ := hm.read hstate
      simp [hready, Monitor.watchAll, Monitor.watch, hheader, cplds_append, mrd64Header_fmt,
        Completes, hstate, pcieCpldFmtType, pcieMrd64FmtType]
    | mwr64Qw1 =>
      obtain ⟨id, hheader⟩ := hm.write hstate
      simp [hready, Monitor.watchAll, Monitor.watch, hheader, cplds_append, mwr64Header_fmt,
        Completes, hstate, pcieCpldFmtType, pcieMwr64FmtType]
    | _ => simp [hready, hnone, Completes, hstate]

/-- The header of a completion is put on the interface. -/
theorem header_of_latched (hs : Framed s) {v : BitVec 32} (hserver : s.cpldServer = .latched v) :
    (m.watchAll (s.put i)).header =
      some (cpldHeader i.mrd32Req s.arb.mrd32ReqLenC i.cfgCompleterId) := by
  have hrst : s.sm.pcieTxState = .rst ∧ s.arb.txSelFlag = .doTxCpld := by
    rw [cpldServer] at hserver
    cases hstate : s.sm.pcieTxState <;> rw [hstate] at hserver <;> simp at hserver ⊢
    by_contra hsel
    rw [if_neg hsel] at hserver
    cases hserver
  have hput : s.put i = (s.next i).offered := by
    rw [put, if_neg]
    rintro ⟨-, hsrc⟩
    exact absurd ((hs.rest hrst.1).symm.trans hsrc) (by decide)
  have hsm : (s.next i).sm = s.mainSm i := rfl
  rw [hput, offered, hsm, mainSm, hrst.1]
  simp [mainRst, hrst.2, Monitor.watchAll, Monitor.watch]

/-- It stays there while the endpoint keeps it waiting. -/
theorem watchAll_of_started (hs : Framed s) {v : BitVec 32} {fresh : Bool}
    (hserver : s.cpldServer = .started v fresh) (hwait : ¬ s.Completes i) :
    m.watchAll (s.put i) = m := by
  have hstate : s.sm.pcieTxState = .cpldQw1 := by
    rw [cpldServer] at hserver
    cases hstate : s.sm.pcieTxState <;> rw [hstate] at hserver <;> simp at hserver ⊢
    split at hserver <;> cases hserver
  have hstall : i.trnTdstRdyN = true := by
    by_contra hready
    exact hwait ⟨hstate, eq_false_of_ne_true hready⟩
  rw [put_stall hs hstall (by rw [hstate]; decide) (by rw [hstate]; decide)]
  rfl

/-! ### Where a completion is -/

theorem completes_next (h : s.Completes i) : (s.next i).sm.pcieTxState = .cpldQwLast := by
  show (s.mainSm i).pcieTxState = _
  rw [mainSm, h.1]
  simp [h.2]

theorem cpldQw1_of_rst (hrst : s.sm.pcieTxState = .rst) (hsel : s.arb.txSelFlag = .doTxCpld) :
    (s.next i).sm.pcieTxState = .cpldQw1 := by
  show (s.mainSm i).pcieTxState = _
  rw [mainSm, hrst, mainRst, hsel]

theorem cpldQw1_of_waits (hstate : s.sm.pcieTxState = .cpldQw1) (h : ¬ s.Completes i) :
    (s.next i).sm.pcieTxState = .cpldQw1 := by
  have hready : i.trnTdstRdyN = true := by
    by_contra hready
    exact h ⟨hstate, eq_false_of_ne_true hready⟩
  show (s.mainSm i).pcieTxState = _
  rw [mainSm, hstate]
  simp [hready, hstate]

/-- A completion starts at rest, when the arbiter chose it. -/
theorem of_cpldQw1_next (h : (s.next i).sm.pcieTxState = .cpldQw1) :
    s.sm.pcieTxState = .cpldQw1 ∨ s.sm.pcieTxState = .rst ∧ s.arb.txSelFlag = .doTxCpld := by
  have hsm : (s.next i).sm = s.mainSm i := rfl
  rw [hsm, mainSm] at h
  cases hstate : s.sm.pcieTxState with
  | rst =>
    right
    rw [hstate] at h
    simp only [mainRst] at h
    cases hsel : s.arb.txSelFlag <;> rw [hsel] at h
    · exact ⟨rfl, rfl⟩
    · cases h
    · cases h
    · cases h
  | cpldQw1 => exact .inl rfl
  | mwr64Qwn =>
    rw [hstate] at h
    simp only [mainQwn] at h
    split at h
    · split at h
      · simp only at h
        split at h <;> cases h
      · rw [hstate] at h
        cases h
    · rw [hstate] at h
      cases h
  | _ =>
    rw [hstate] at h
    simp only at h
    split at h
    · cases h
    · rw [hstate] at h
      cases h

/-- The transmitter comes to rest with a completion to send, if it was asked for one. -/
theorem chosen_of_rst (hstart : i.cpldStart = true) (hrst : (s.next i).sm.pcieTxState = .rst) :
    (s.next i).arb.txSelFlag = .doTxCpld := by
  obtain ⟨hchoose, -⟩ := choose_of_rst (s := s) (i := i) hrst
  have harb : (s.next i).arb = s.arb.choose i := hchoose
  rw [harb, Arbiter.choose, if_pos hstart]

theorem cpldServer_latched (hrst : s.sm.pcieTxState = .rst) (hsel : s.arb.txSelFlag = .doTxCpld) :
    s.cpldServer = .latched s.arb.mrd32ReqDataC := by
  rw [cpldServer, hrst]
  exact if_pos hsel

theorem cpldServer_started (hstate : s.sm.pcieTxState = .cpldQw1) :
    s.cpldServer = .started s.arb.mrd32ReqDataC s.cpldStartAck := by
  rw [cpldServer, hstate]

theorem cpldServer_finishing (hstate : s.sm.pcieTxState = .cpldQwLast) :
    s.cpldServer = .finishing := by
  rw [cpldServer, hstate]

end TxWrapper

end PcieCsr

end LeapPlatforms
