import LeapPlatforms.PcieCsr.HostSide

/-!
# The completions of register reads

A completion takes the requester, the tag and the bytes that are asked for from the side registers
of the receiver as they are when it is built. They are those of its read as long as no header of
another read goes over them before, and every access finds the host machine at rest.

## Main definitions

* `HostSide.Spaced` — how far apart accesses have to be
* `HostSide.Faithful`, `HostSide.Answered` — what is said of the accesses
* `hostAccesses` — the runs

## Main results

* `accesses_faithful`
* `read_then_write` — a write that is lost
-/

namespace LeapPlatforms

namespace PcieCsr

open Handing TxWrapper

/-! ### What is asked of the accesses -/

/-- The request of a read. -/
def Access.request? : Access → Option Mrd32Req
  | .read r => some r
  | .write _ _ => none

/-- An operation that is answered. -/
def RegOp.isRead : RegOp → Bool
  | .read _ => true
  | .write _ _ => false

/-- The second quadwords of their completions are alike: the requester, the tag and the lower
address. -/
def Mrd32Req.Alike (r r' : Mrd32Req) : Prop :=
  r.rid = r'.rid ∧ r.tag = r'.tag ∧ calcLaddr r.be r.addr = calcLaddr r'.be r'.addr

instance (r r' : Mrd32Req) : Decidable (r.Alike r') := inferInstanceAs (Decidable (_ ∧ _))

theorem Mrd32Req.Alike.cpldLast {r r' : Mrd32Req} (h : r.Alike r') (v : BitVec 32) :
    cpldLast r v = cpldLast r' v := by
  rw [PcieCsr.cpldLast, PcieCsr.cpldLast, h.1, h.2.1, h.2.2]

theorem Mrd32Req.Alike.trans {r r' r'' : Mrd32Req} (h : r.Alike r') (h' : r'.Alike r'') :
    r.Alike r'' :=
  ⟨h.1.trans h'.1, h.2.1.trans h'.2.1, h.2.2.trans h'.2.2⟩

/-- The byte count in the header of a completion. -/
def byteCount (header : BitVec 64) : BitVec 12 := header.extractLsb' 0 12

theorem byteCount_cpldHeader (r : Mrd32Req) (lenC : BitVec 10) (completerId : BitVec 16) :
    byteCount (cpldHeader r lenC completerId) = calcBe r.be :=
  BitVec.extractLsb'_append_eq_right

namespace HostSide

variable {B : CsrBram}

/-- A read has arrived, and the second quadword of its completion is not built. -/
def Waits (s : HostSide B) : Prop :=
  s.rx.rx.csrRdStart = true ∨ s.csr.csrSt = .readBram ∨ s.csr.csrSt = .readBar0 ∨
    s.csr.csrSt = .readCpld ∨ s.tx.sm.pcieTxState = .cpldQw1

instance (s : HostSide B) : Decidable s.Waits := inferInstanceAs (Decidable (_ ∨ _))

/-- The first quadword of its completion is not built either. -/
def Unheaded (s : HostSide B) : Prop :=
  s.tx.sm.pcieTxState ≠ .cpldQw1 ∧
    ¬ (s.tx.sm.pcieTxState = .rst ∧ s.tx.arb.txSelFlag = .doTxCpld)

instance (s : HostSide B) : Decidable s.Unheaded := inferInstanceAs (Decidable (_ ∧ _))

/-- A header does not go over what a completion still needs. -/
def Harmless (s : HostSide B) (i : HostClock) (hd : BitVec 64) : Prop :=
  IsRead hd → s.Waits → ¬ s.tx.Completes (s.txIn i) →
    (requestOf hd s.rx.rx.mrd32Req.addr).Alike s.rx.rx.mrd32Req ∧
      (s.Unheaded → calcBe (hd.extractLsb' 0 4) = calcBe s.rx.rx.mrd32Req.be)

instance (s : HostSide B) (i : HostClock) (hd : BitVec 64) : Decidable (s.Harmless i hd) :=
  inferInstanceAs (Decidable (_ → _ → _ → _))

/-- An access is shown to the host machine when it rests, and no header goes over what a completion
still needs. -/
structure Spaced (s : HostSide B) (i : HostClock) : Prop where
  free : s.rx.rx.pulse ≠ none → s.csr.csrSt = .rst
  fields : ∀ hd, s.rx.headerTaken i.rx = some hd → s.Harmless i hd

theorem spaced_iff (s : HostSide B) (i : HostClock) : s.Spaced i ↔
    (s.rx.rx.pulse ≠ none → s.csr.csrSt = .rst) ∧
      ((s.rx.headerTaken i.rx).all fun hd => decide (s.Harmless i hd)) = true := by
  rw [Option.all_eq_true]
  exact ⟨fun h => ⟨h.free, fun hd hhd => decide_eq_true (h.fields hd hhd)⟩,
    fun h => ⟨h.1, fun hd hhd => of_decide_eq_true (h.2 hd hhd)⟩⟩

instance (s : HostSide B) (i : HostClock) : Decidable (s.Spaced i) :=
  decidable_of_iff' _ (spaced_iff s i)

/-! ### Completions -/

/-- The reads that have arrived. -/
def requests (s : HostSide B) : List Mrd32Req := s.arrived.filterMap Access.request?

/-- A completion that was sent is that of its read, and what one that is to be sent needs is
there. -/
structure Answering (s : HostSide B) : Prop where
  sent : ∀ (k : ℕ) t r, s.monitor.cplds[k]? = some t → s.requests[k]? = some r →
    byteCount t.1 = calcBe r.be ∧ t.2 = cpldLast r (loDw t.2)
  waiting : (s.rx.rx.pulse ≠ none → s.csr.csrSt = .rst) → s.Waits →
    ∀ r, s.requests[s.monitor.cplds.length]? = some r → s.rx.rx.mrd32Req.Alike r ∧
      if s.tx.sm.pcieTxState = .cpldQw1 then byteCount (s.monitor.header.getD 0) = calcBe r.be
      else calcBe s.rx.rx.mrd32Req.be = calcBe r.be

variable {s : HostSide B} {i : HostClock}

/-! ### How many reads there are -/

theorem length_values (l : List RegEvent) : (l.filterMap RegEvent.value?).length =
    (l.filterMap RegEvent.op?).countP RegOp.isRead := by
  induction l with
  | nil => rfl
  | cons e l ih =>
    rw [List.filterMap_cons, List.filterMap_cons]
    cases e <;> simp [RegEvent.value?, RegEvent.op?, RegOp.isRead, List.countP_cons, ih]

theorem length_requests (l : List Access) : (l.filterMap Access.request?).length =
    (l.map Access.op).countP RegOp.isRead := by
  induction l with
  | nil => rfl
  | cons a l ih =>
    rw [List.filterMap_cons, List.map_cons, List.countP_cons, ← ih]
    cases a <;> simp [Access.request?, Access.op, RegOp.isRead]

/-- A read that has arrived was done, or was taken, or is shown. -/
theorem Running.length_requests (h : s.Running) : s.requests.length =
    (s.history.filterMap RegEvent.value?).length + (s.csr.unserved.toList.countP RegOp.isRead +
      (s.rx.rx.pulse.map Access.op).toList.countP RegOp.isRead) := by
  rw [requests, PcieCsr.HostSide.length_requests, ← h.order, List.countP_append, length_values,
    List.countP_append]

theorem requester_idle (hbram : s.csr.csrSt ≠ .readCpld) (hfinish : s.csr.csrSt ≠ .readCpldFinish) :
    s.csr.requester = ⟨.idle, []⟩ := by
  rw [CsrHostCtrl.requester]
  cases hst : s.csr.csrSt with
  | readCpld => exact absurd hst hbram
  | readCpldFinish => exact absurd hst hfinish
  | _ => rfl

/-- At rest every read was answered, but for one that is shown. -/
theorem Running.length_of_rest (h : s.Running) (hst : s.csr.csrSt = .rst) : s.requests.length =
    s.monitor.cplds.length + (s.rx.rx.pulse.map Access.op).toList.countP RegOp.isRead := by
  obtain ⟨asked, hagrees, hvalues⟩ := h.agrees
  have hidle : s.csr.requester = ⟨.idle, []⟩ :=
    requester_idle (by rw [hst]; decide) (by rw [hst]; decide)
  have hserved : s.served = asked := (hagrees.of_idle (by rw [hidle]) (by rw [hidle])).2
  have hsampled : s.sampled = none := by
    rw [sampled, CsrHostCtrl.sampled, hst]
  have hunserved : s.csr.unserved = none := by
    rw [CsrHostCtrl.unserved, hst]
  have hlength : s.served.length = s.monitor.cplds.length := List.length_map _
  rw [h.length_requests, hvalues, hsampled, hunserved, ← hserved]
  simp [hlength]

/-- While a completion is built, its read is not answered. -/
theorem Running.lt_of_started (h : s.Running) (hstate : s.tx.sm.pcieTxState = .cpldQw1) :
    s.monitor.cplds.length < s.requests.length := by
  obtain ⟨asked, hagrees, hvalues⟩ := h.agrees
  have hlt := (hagrees.of_started (cpldServer_started hstate)).2
  have hlength : s.served.length = s.monitor.cplds.length := List.length_map _
  rw [h.length_requests, hvalues, List.length_append]
  dsimp only at hlt
  omega

/-- No more reads were answered than have arrived. -/
theorem Running.length_le (h : s.Running) : s.monitor.cplds.length ≤ s.requests.length := by
  obtain ⟨asked, hagrees, hvalues⟩ := h.agrees
  have hle := hagrees.served_prefix.length_le
  have hlength : s.served.length = s.monitor.cplds.length := List.length_map _
  rw [h.length_requests, hvalues, List.length_append]
  dsimp only at hle
  omega

/-! ### One clock -/

/-- Nothing that is built is built for a read to come. -/
theorem Running.waits_of_next (h : s.Running) (ht : (s.next i).Running) (hcalm : s.Calm i)
    (hpulse : (s.next i).rx.rx.pulse = none) (hwaits : (s.next i).Waits) :
    s.Waits ∧ ¬ s.tx.Completes (s.txIn i) := by
  have hread : (s.next i).rx.rx.csrRdStart = false := by
    by_contra hread
    obtain ⟨r, hr⟩ := ht.passing.rdStart.mp (by simpa using hread)
    rw [hpulse] at hr
    cases hr
  obtain ⟨asked, hagrees, -⟩ := h.agrees
  obtain ⟨asked', hagrees', -⟩ := ht.agrees
  constructor
  · rcases hwaits with h' | h' | h' | h' | h'
    · exact absurd (hread.symm.trans h') (by decide)
    · rcases CsrHostCtrl.reading_next hcalm.rst (.inl h') with hr | hr | hr | hr
      · exact .inl hr
      · exact .inr (.inl hr)
      · exact .inr (.inr (.inl hr))
      · exact .inr (.inr (.inr (.inl hr)))
    · rcases CsrHostCtrl.reading_next hcalm.rst (.inr (.inl h')) with hr | hr | hr | hr
      · exact .inl hr
      · exact .inr (.inl hr)
      · exact .inr (.inr (.inl hr))
      · exact .inr (.inr (.inr (.inl hr)))
    · rcases CsrHostCtrl.reading_next hcalm.rst (.inr (.inr h')) with hr | hr | hr | hr
      · exact .inl hr
      · exact .inr (.inl hr)
      · exact .inr (.inr (.inl hr))
      · exact .inr (.inr (.inr (.inl hr)))
    · rcases of_cpldQw1_next h' with hstate | ⟨hrst, hsel⟩
      · exact .inr (.inr (.inr (.inr hstate)))
      · -- what is latched is asked for
        obtain ⟨hphase, htodo⟩ := hagrees.of_latched (cpldServer_latched hrst hsel)
        refine .inr (.inr (.inr (.inl ?_)))
        by_contra hne
        by_cases hfinish : s.csr.csrSt = .readCpldFinish
        · refine htodo ?_
          dsimp only
          rw [CsrHostCtrl.requester, hfinish]
        · refine hphase ?_
          dsimp only
          rw [requester_idle hne hfinish]
  · intro hcompletes
    have hstate := completes_next hcompletes
    have hphase := hagrees'.of_finishing (cpldServer_finishing hstate)
    have hnot : ∀ st : CsrSt, (s.next i).csr.csrSt = st → st = .readBram ∨ st = .readBar0 ∨
        st = .readCpld → False := by
      intro st hst' hcases
      dsimp only at hphase
      rw [CsrHostCtrl.requester, hst'] at hphase
      rcases hcases with rfl | rfl | rfl <;> cases hphase
    rcases hwaits with h' | h' | h' | h' | h'
    · exact absurd (hread.symm.trans h') (by decide)
    · exact hnot _ h' (.inl rfl)
    · exact hnot _ h' (.inr (.inl rfl))
    · exact hnot _ h' (.inr (.inr rfl))
    · exact absurd (h'.symm.trans hstate) (by decide)

theorem requests_next : (s.next i).requests =
    s.requests ++ ((s.rx.arrival i.rx s.header).bind Access.request?).toList := by
  show (s.arrived ++ (s.rx.arrival i.rx s.header).toList).filterMap _ = _
  rw [List.filterMap_append, requests]
  cases s.rx.arrival i.rx s.header with
  | none => rfl
  | some a => cases a <;> rfl

theorem pulse_next (h : s.Running) (hcalm : s.Calm i) :
    (s.next i).rx.rx.pulse = s.rx.arrival i.rx s.header :=
  (h.passing.next hcalm.plain).pulse_eq

/-- A read that has just arrived has its fields in the side registers. -/
theorem Running.waiting_rest (h : s.Running) (ht : (s.next i).Running) (hcalm : s.Calm i)
    (hst : (s.next i).csr.csrSt = .rst) (hwaits : (s.next i).Waits) {r : Mrd32Req}
    (hr : (s.next i).requests[(s.next i).monitor.cplds.length]? = some r) :
    (s.next i).rx.rx.mrd32Req = r ∧ (s.next i).tx.sm.pcieTxState ≠ .cpldQw1 := by
  obtain ⟨asked, hagrees, -⟩ := ht.agrees
  have hidle : (s.next i).csr.requester = ⟨.idle, []⟩ :=
    requester_idle (by rw [hst]; decide) (by rw [hst]; decide)
  have hstate : (s.next i).tx.sm.pcieTxState ≠ .cpldQw1 := fun hstate =>
    (hagrees.of_started (cpldServer_started hstate)).1 (by rw [hidle])
  refine ⟨?_, hstate⟩
  have hread : (s.next i).rx.rx.csrRdStart = true := by
    rcases hwaits with h' | h' | h' | h' | h'
    · exact h'
    · exact absurd (h'.symm.trans hst) (by decide)
    · exact absurd (h'.symm.trans hst) (by decide)
    · exact absurd (h'.symm.trans hst) (by decide)
    · exact absurd h' hstate
  obtain ⟨r', hpulse⟩ := ht.passing.rdStart.mp hread
  have harrival := (pulse_next h hcalm).symm.trans hpulse
  have hrequests : (s.next i).requests = s.requests ++ [r'] := by
    rw [requests_next, harrival]
    rfl
  have hlength := ht.length_of_rest hst
  rw [hrequests, hpulse, List.length_append] at hlength
  have hcount : (Option.map Access.op (some (.read r'))).toList.countP RegOp.isRead = 1 := rfl
  rw [hcount] at hlength
  rw [hrequests, ← Nat.add_right_cancel hlength, List.getElem?_concat_length] at hr
  rw [ht.passing.shownRead r' hpulse]
  exact Option.some.inj hr

/-- What a completion needs stays. -/
theorem Answering.waiting_next (h : s.Answering) (hrun : s.Running) (hcalm : s.Calm i)
    (hspaced : s.Spaced i) (hwaits : s.Waits) (hnot : ¬ s.tx.Completes (s.txIn i))
    (harrival : s.rx.arrival i.rx s.header = none) {r : Mrd32Req}
    (hr : s.requests[s.monitor.cplds.length]? = some r) : (s.next i).rx.rx.mrd32Req.Alike r ∧
      if (s.next i).tx.sm.pcieTxState = .cpldQw1 then
        byteCount ((s.next i).monitor.header.getD 0) = calcBe r.be
      else calcBe (s.next i).rx.rx.mrd32Req.be = calcBe r.be := by
  obtain ⟨halike, hbytes⟩ := h.waiting hspaced.free hwaits r hr
  have hreq := hrun.passing.mrd32Req_next hcalm.plain fun r' hr' => by
    rw [harrival] at hr'
    cases hr'
  have halike' : (s.next i).rx.rx.mrd32Req.Alike s.rx.rx.mrd32Req := by
    rcases hreq with heq | ⟨hd, htaken, hread, heq⟩
    · exact heq ▸ ⟨rfl, rfl, rfl⟩
    · exact heq ▸ (hspaced.fields hd htaken hread hwaits hnot).1
  refine ⟨halike'.trans halike, ?_⟩
  by_cases hstate : s.tx.sm.pcieTxState = .cpldQw1
  · have hwait := watchAll_of_started (m := s.monitor) hrun.framed (cpldServer_started hstate) hnot
    have hheader : (s.next i).monitor = s.monitor := hwait
    have hstate' : (s.next i).tx.sm.pcieTxState = .cpldQw1 := cpldQw1_of_waits hstate hnot
    rw [if_pos hstate] at hbytes
    rw [if_pos hstate', hheader]
    exact hbytes
  rw [if_neg hstate] at hbytes
  by_cases hlatched : s.tx.sm.pcieTxState = .rst ∧ s.tx.arb.txSelFlag = .doTxCpld
  · obtain ⟨hrst, hsel⟩ := hlatched
    have hheader : (s.next i).monitor.header = _ :=
      header_of_latched (m := s.monitor) (i := s.txIn i) hrun.framed (cpldServer_latched hrst hsel)
    have hstate' : (s.next i).tx.sm.pcieTxState = .cpldQw1 := cpldQw1_of_rst hrst hsel
    rw [if_pos hstate', hheader, Option.getD_some, byteCount_cpldHeader]
    exact hbytes
  · have hnext : (s.next i).tx.sm.pcieTxState ≠ .cpldQw1 := fun hcpld =>
      (of_cpldQw1_next hcpld).elim hstate hlatched
    rw [if_neg hnext]
    rcases hreq with heq | ⟨hd, htaken, hread, heq⟩
    · rw [show (s.next i).rx.rx.mrd32Req = s.rx.rx.mrd32Req from heq]
      exact hbytes
    · rw [show (s.next i).rx.rx.mrd32Req = _ from heq]
      exact ((hspaced.fields hd htaken hread hwaits hnot).2 ⟨hstate, hlatched⟩).trans hbytes

theorem Answering.next (h : s.Answering) (hrun : s.Running) (hcalm : s.Calm i)
    (hspaced : s.Spaced i) : (s.next i).Answering := by
  have ht := hrun.next hcalm hspaced.free
  have hcplds : (s.next i).monitor.cplds = _ :=
    cplds_next (i := s.txIn i) hrun.framed hrun.watched
  refine ⟨fun k t r hk hr => ?_, fun hlive hwaits r hr => ?_⟩
  · rw [hcplds] at hk
    rw [requests_next] at hr
    by_cases hlt : k < s.monitor.cplds.length
    · have hlt' : k < s.requests.length := hlt.trans_le hrun.length_le
      rw [List.getElem?_append_left hlt] at hk
      rw [List.getElem?_append_left hlt'] at hr
      exact h.sent k t r hk hr
    · by_cases hcompletes : s.tx.Completes (s.txIn i)
      · rw [if_pos hcompletes, List.getElem?_append_right (not_lt.mp hlt)] at hk
        obtain ⟨hzero, rfl⟩ := List.getElem?_eq_some_iff.mp hk
        have hk' : k = s.monitor.cplds.length := by
          rw [List.length_singleton] at hzero
          omega
        subst hk'
        rw [List.getElem?_append_left (hrun.lt_of_started hcompletes.1)] at hr
        obtain ⟨halike, hbytes⟩ :=
          h.waiting hspaced.free (.inr (.inr (.inr (.inr hcompletes.1)))) r hr
        rw [if_pos hcompletes.1] at hbytes
        simp only [Nat.sub_self, List.getElem_cons_zero, loDw_cpldLast]
        exact ⟨hbytes, halike.cpldLast _⟩
      · rw [if_neg hcompletes, List.append_nil, List.getElem?_eq_none (not_lt.mp hlt)] at hk
        cases hk
  · by_cases hst : (s.next i).csr.csrSt = .rst
    · obtain ⟨hreq, hstate⟩ := hrun.waiting_rest ht hcalm hst hwaits hr
      rw [if_neg hstate, hreq]
      exact ⟨⟨rfl, rfl, rfl⟩, rfl⟩
    · have hpulse : (s.next i).rx.rx.pulse = none := by
        by_contra hsome
        exact hst (hlive hsome)
      obtain ⟨hwaits', hnot⟩ := hrun.waits_of_next ht hcalm hpulse hwaits
      have harrival := (pulse_next hrun hcalm).symm.trans hpulse
      refine h.waiting_next hrun hcalm hspaced hwaits' hnot harrival ?_
      rw [hcplds, if_neg hnot, List.append_nil, requests_next, harrival] at hr
      simpa using hr

theorem answering_start : ({} : HostSide B).Answering where
  sent := by
    intro k t r hk
    cases hk
  waiting := by
    intro _ _ r hr
    cases hr

/-! ### What is said of the accesses -/

/-- Every write is done once, in the order of arrival; every completion is that of its read, and its
data is the value of the register where the read stands among all that happens to it. -/
structure Faithful (s : HostSide B) : Prop where
  order : s.history.filterMap RegEvent.op? <+: s.arrived.map Access.op
  legal : (regFiles (B.contents B.init)).Legal s.history
  registers : (regFiles (B.contents B.init)).after s.history = s.registers
  completions : ∀ (k : ℕ) t, s.monitor.cplds[k]? = some t → ∃ r v, s.requests[k]? = some r ∧
    (s.history.filterMap RegEvent.value?)[k]? = some v ∧ byteCount t.1 = calcBe r.be ∧
      t.2 = cpldLast r v
  /-- At rest nothing is left. -/
  settled : s.rx.rx.pulse = none → s.csr.csrSt = .rst →
    s.history.filterMap RegEvent.op? = s.arrived.map Access.op ∧
      s.monitor.cplds.length = s.requests.length

theorem Running.faithful (h : s.Running) (ha : s.Answering) : s.Faithful := by
  refine ⟨⟨_, h.order⟩, h.legal, h.registers, fun k t hk => ?_, fun hpulse hst => ⟨?_, ?_⟩⟩
  · obtain ⟨asked, hagrees, hvalues⟩ := h.agrees
    have hpre : s.served <+: asked := hagrees.served_prefix
    obtain ⟨rest, hrest⟩ := hpre
    have hk' := (List.getElem?_eq_some_iff.mp hk).1
    have hserved : s.served[k]? = some (loDw t.2) := by
      rw [served, List.getElem?_map, hk]
      rfl
    have hvalue : (s.history.filterMap RegEvent.value?)[k]? = some (loDw t.2) := by
      have hlt := (List.getElem?_eq_some_iff.mp hserved).1
      have hasked : asked[k]? = some (loDw t.2) := by
        rw [← hrest, List.getElem?_append_left hlt]
        exact hserved
      rw [hvalues, List.getElem?_append_left (List.getElem?_eq_some_iff.mp hasked).1]
      exact hasked
    obtain ⟨r, hr⟩ : ∃ r, s.requests[k]? = some r :=
      ⟨_, List.getElem?_eq_getElem (hk'.trans_le h.length_le)⟩
    obtain ⟨hbytes, hlast⟩ := ha.sent k t r hk hr
    exact ⟨r, _, hr, hvalue, hbytes, hlast⟩
  · have hunserved : s.csr.unserved = none := by rw [CsrHostCtrl.unserved, hst]
    have horder := h.order
    rw [hunserved, hpulse] at horder
    simpa using horder
  · have hlength := h.length_of_rest hst
    rw [hpulse] at hlength
    exact hlength.symm

/-! ### The host machine comes to rest -/

/-- The state after the first clocks. -/
def after (s : HostSide B) (cs : ℕ → HostClock) : ℕ → HostSide B
  | 0 => s
  | n + 1 => (s.after cs n).next (cs n)

/-- The clocks go on as they should. -/
def GoesOn (s : HostSide B) (cs : ℕ → HostClock) : Prop :=
  ∀ n, (s.after cs n).Calm (cs n) ∧ (s.after cs n).Spaced (cs n)

/-- Whatever has arrived is done and answered, if the transmitter comes to rest again and again. -/
def Answered (s : HostSide B) : Prop :=
  ∀ cs, s.GoesOn cs → (∀ n, ∃ m ≥ n, (s.after cs m).tx.sm.pcieTxState = .rst) →
    ∃ n, s.arrived.map Access.op <+: (s.after cs n).history.filterMap RegEvent.op? ∧
      s.requests.length ≤ (s.after cs n).monitor.cplds.length

variable {cs : ℕ → HostClock}

theorem Running.after (h : s.Running) (hcs : s.GoesOn cs) (n : ℕ) : (s.after cs n).Running := by
  induction n with
  | zero => exact h
  | succ n ih => exact ih.next (hcs n).1 (hcs n).2.free

/-- What stays until something happens stays, or it happens. -/
theorem stays_until {p q : ℕ → Prop} {n : ℕ} (h : p n) (hstep : ∀ k, p k → p (k + 1) ∨ q (k + 1))
    {k : ℕ} (hk : n ≤ k) : p k ∨ ∃ m ≥ n, q m := by
  induction k, hk using Nat.le_induction with
  | base => exact .inl h
  | succ k hk ih =>
    rcases ih with ih | ih
    · rcases hstep k ih with hp | hq
      · exact .inl hp
      · exact .inr ⟨k + 1, hk.trans (Nat.le_succ k), hq⟩
    · exact .inr ih

/-- A read under way is asked for in two clocks. -/
theorem GoesOn.asks (hcs : s.GoesOn cs) {n : ℕ}
    (hst : (s.after cs n).csr.csrSt = .readBram ∨ (s.after cs n).csr.csrSt = .readBar0) :
    ∃ m ≥ n, (s.after cs m).csr.csrSt = .readCpld := by
  have hfirst := CsrHostCtrl.reads_next (i := (s.after cs n).csrIn (cs n)) (hcs n).1.rst hst
  cases hdelay : (s.after cs n).csr.csrRdDelay with
  | true =>
    rw [if_pos hdelay] at hfirst
    exact ⟨n + 1, Nat.le_succ n, hfirst⟩
  | false =>
    rw [if_neg (by rw [hdelay]; decide)] at hfirst
    obtain ⟨hsame, hdelay'⟩ := hfirst
    replace hdelay' : (s.after cs (n + 1)).csr.csrRdDelay = true := hdelay'
    have hsecond := CsrHostCtrl.reads_next (s := (s.after cs (n + 1)).csr)
      (i := (s.after cs (n + 1)).csrIn (cs (n + 1))) (hcs (n + 1)).1.rst (hsame ▸ hst)
    rw [if_pos hdelay'] at hsecond
    exact ⟨n + 2, by omega, hsecond⟩

/-- It is acknowledged when the transmitter has come to rest. -/
theorem Running.acknowledged (h : s.Running) (hcs : s.GoesOn cs)
    (hrest : ∀ n, ∃ m ≥ n, (s.after cs m).tx.sm.pcieTxState = .rst) {n : ℕ}
    (hst : (s.after cs n).csr.csrSt = .readCpld) :
    ∃ m ≥ n, (s.after cs m).csr.csrSt = .readCpldFinish := by
  have hnext : ∀ k, (s.after cs k).csr.csrSt = .readCpld → (s.after cs (k + 1)).csr.csrSt =
      if (s.after cs k).tx.cpldStartAck then .readCpldFinish else .readCpld := fun k hk =>
    CsrHostCtrl.readCpld_next (i := (s.after cs k).csrIn (cs k)) (hcs k).1.rst hk
  have hstays : ∀ {k}, n ≤ k → (s.after cs k).csr.csrSt = .readCpld ∨
      ∃ m ≥ n, (s.after cs m).csr.csrSt = .readCpldFinish := by
    refine stays_until (p := fun k => (s.after cs k).csr.csrSt = .readCpld) hst fun k hk => ?_
    have hk' := hnext k hk
    cases hack : (s.after cs k).tx.cpldStartAck with
    | false => exact .inl (hk'.trans (by rw [hack]; rfl))
    | true => exact .inr (hk'.trans (by rw [hack]; rfl))
  obtain ⟨m, hm, hrst⟩ := hrest (n + 1)
  obtain ⟨k, rfl⟩ : ∃ k, m = k + 1 := ⟨m - 1, by omega⟩
  rcases hstays (show n ≤ k by omega) with hk | hdone
  swap
  · exact hdone
  -- the transmitter was asked, and takes the completion next
  have hstart : ((s.after cs k).txIn (cs k)).cpldStart = true := by
    show (s.after cs k).csr.cpldStart = true
    rw [(h.after hcs k).sound.start, hk]
    rfl
  have hsel := chosen_of_rst hstart hrst
  have hack : (s.after cs (k + 2)).tx.cpldStartAck = true := by
    show (s.after cs (k + 1)).tx.startAck .doTxCpld = true
    rw [startAck]
    exact decide_eq_true ⟨hrst, hsel⟩
  rcases hstays (show n ≤ k + 2 by omega) with hk' | hdone
  · exact ⟨k + 3, by omega, (hnext (k + 2) hk').trans (by rw [hack]; rfl)⟩
  · exact hdone

/-- And it is done when the transmitter has come to rest again. -/
theorem Running.finished (h : s.Running) (hcs : s.GoesOn cs)
    (hrest : ∀ n, ∃ m ≥ n, (s.after cs m).tx.sm.pcieTxState = .rst) {n : ℕ}
    (hst : (s.after cs n).csr.csrSt = .readCpldFinish) :
    ∃ m ≥ n, (s.after cs m).csr.csrSt = .rst := by
  have hnext : ∀ k, (s.after cs k).csr.csrSt = .readCpldFinish → (s.after cs (k + 1)).csr.csrSt =
      if (s.after cs k).tx.sm.cpldFinish then .rst else .readCpldFinish := fun k hk =>
    CsrHostCtrl.readCpldFinish_next (i := (s.after cs k).csrIn (cs k)) (hcs k).1.rst hk
  have hstays : ∀ {k}, n ≤ k → (s.after cs k).csr.csrSt = .readCpldFinish ∨
      ∃ m ≥ n, (s.after cs m).csr.csrSt = .rst := by
    refine stays_until (p := fun k => (s.after cs k).csr.csrSt = .readCpldFinish) hst fun k hk => ?_
    have hk' := hnext k hk
    cases hfinish : (s.after cs k).tx.sm.cpldFinish with
    | false => exact .inl (hk'.trans (by rw [hfinish]; rfl))
    | true => exact .inr (hk'.trans (by rw [hfinish]; rfl))
  obtain ⟨m, hm, hrst⟩ := hrest n
  rcases hstays hm with hm' | hdone
  · have hfinish : (s.after cs m).tx.sm.cpldFinish = true := by
      rw [(h.after hcs m).signals.finish, cpldServer, hrst]
      simp only
      split <;> rfl
    exact ⟨m + 1, by omega, (hnext m hm').trans (by rw [hfinish]; rfl)⟩
  · exact hdone

/-- **The host machine comes to rest.** -/
theorem Running.rests (h : s.Running) (hcs : s.GoesOn cs)
    (hrest : ∀ n, ∃ m ≥ n, (s.after cs m).tx.sm.pcieTxState = .rst) (n : ℕ) :
    ∃ m ≥ n, (s.after cs m).csr.csrSt = .rst := by
  have hcpld : ∀ n, (s.after cs n).csr.csrSt = .readCpld →
      ∃ m ≥ n, (s.after cs m).csr.csrSt = .rst := by
    intro n hst
    obtain ⟨m, hm, hfinish⟩ := h.acknowledged hcs hrest hst
    obtain ⟨l, hl, hrst⟩ := h.finished hcs hrest hfinish
    exact ⟨l, hm.trans hl, hrst⟩
  have hread : ∀ n, (s.after cs n).csr.csrSt = .readBram ∨ (s.after cs n).csr.csrSt = .readBar0 →
      ∃ m ≥ n, (s.after cs m).csr.csrSt = .rst := by
    intro n hst
    obtain ⟨m, hm, hasks⟩ := hcs.asks hst
    obtain ⟨l, hl, hrst⟩ := hcpld m hasks
    exact ⟨l, hm.trans hl, hrst⟩
  cases hst : (s.after cs n).csr.csrSt with
  | rst => exact ⟨n, le_rfl, hst⟩
  | write =>
    refine ⟨n + 1, Nat.le_succ n, ?_⟩
    show ((s.after cs n).csr.next _).csrSt = _
    rw [CsrHostCtrl.next, show ((s.after cs n).csrIn (cs n)).hwChnlRst = false from (hcs n).1.rst,
      hst]
    rfl
  | readBram => exact hread n (.inl hst)
  | readBar0 => exact hread n (.inr hst)
  | readCpld => exact hcpld n hst
  | readCpldFinish => exact h.finished hcs hrest hst

theorem arrived_after (s : HostSide B) (cs : ℕ → HostClock) (n : ℕ) :
    s.arrived <+: (s.after cs n).arrived := by
  induction n with
  | zero => exact List.prefix_refl _
  | succ n ih => exact ih.trans (List.prefix_append _ _)

/-- When the host machine comes to rest, whatever arrived before was done and answered. -/
theorem Running.rest_next (h : s.Running) (hcalm : s.Calm i)
    (hfree : s.rx.rx.pulse ≠ none → s.csr.csrSt = .rst) (hst : (s.next i).csr.csrSt = .rst) :
    s.arrived.map Access.op = (s.next i).history.filterMap RegEvent.op? ∧
      s.requests.length = (s.next i).monitor.cplds.length := by
  have ht := h.next hcalm hfree
  have hpulse := pulse_next h hcalm
  constructor
  · have hunserved : (s.next i).csr.unserved = none := by rw [CsrHostCtrl.unserved, hst]
    have horder := ht.order
    have harrived : (s.next i).arrived = s.arrived ++ (s.rx.arrival i.rx s.header).toList := rfl
    rw [hunserved, hpulse, harrived, List.map_append] at horder
    have hsame : ((s.rx.arrival i.rx s.header).map Access.op).toList =
        (s.rx.arrival i.rx s.header).toList.map Access.op := by
      cases s.rx.arrival i.rx s.header <;> rfl
    rw [Option.toList_none, List.nil_append, hsame] at horder
    exact (List.append_cancel_right horder).symm
  · have hlength := ht.length_of_rest hst
    rw [requests_next, hpulse, List.length_append] at hlength
    have hsame : ((s.rx.arrival i.rx s.header).bind Access.request?).toList.length =
        ((s.rx.arrival i.rx s.header).map Access.op).toList.countP RegOp.isRead := by
      cases s.rx.arrival i.rx s.header with
      | none => rfl
      | some a => cases a <;> rfl
    rw [hsame] at hlength
    exact Nat.add_right_cancel hlength

theorem Running.answered (h : s.Running) : s.Answered := by
  intro cs hcs hrest
  obtain ⟨m, hm, hst⟩ := h.rests hcs hrest 1
  obtain ⟨n, rfl⟩ : ∃ n, m = n + 1 := ⟨m - 1, by omega⟩
  obtain ⟨hdone, hlength⟩ := (h.after hcs n).rest_next (hcs n).1 (hcs n).2.free hst
  have hpre := arrived_after s cs n
  refine ⟨n + 1, ?_, ?_⟩
  · exact hdone ▸ hpre.map Access.op
  · exact hlength ▸ (hpre.filterMap Access.request?).length_le

end HostSide

/-! ### Runs -/

/-- The runs in surroundings that are as asked for, with a condition on the accesses. -/
def hostAccesses (B : CsrBram) (P : HostSide B → HostClock → Prop) :
    TransitionSystem (HostSide B) where
  init s := s = {}
  step s t := ∃ i, s.Calm i ∧ P s i ∧ t = s.next i

theorem running_of_reachable {B : CsrBram} {s : HostSide B}
    (h : (hostAccesses B HostSide.Spaced).Reachable s) : s.Running ∧ s.Answering := by
  refine h.invariant (P := fun s => s.Running ∧ s.Answering) ?_ ?_
  · rintro _ rfl
    exact ⟨HostSide.running_start, HostSide.answering_start⟩
  · rintro s _ ⟨hrun, ha⟩ ⟨i, hcalm, hspaced, rfl⟩
    exact ⟨hrun.next hcalm hspaced.free, ha.next hrun hcalm hspaced⟩

/-- **Register accesses.** As long as every access is shown to the host machine when it rests, and
no header goes over what a completion still needs, every write is done once and in order, and every
read has one completion, its own, with the value of its register. -/
theorem accesses_faithful {B : CsrBram} {s : HostSide B}
    (h : (hostAccesses B HostSide.Spaced).Reachable s) : s.Faithful ∧ s.Answered := by
  obtain ⟨hrun, ha⟩ := running_of_reachable h
  exact ⟨hrun.faithful ha, hrun.answered⟩

/-! ### Two runs -/

/-- A block RAM that reads before it writes. -/
def sampleNext (s : (BitVec 8 → BitVec 32) × BitVec 32) (a b : BramPort) :
    (BitVec 8 → BitVec 32) × BitVec 32 :=
  (fun x => if a.Writes x then a.din else if b.Writes x then b.din else s.1 x, s.1 b.addr)

theorem sampleNext_a (s : (BitVec 8 → BitVec 32) × BitVec 32) (a b : BramPort) (x : BitVec 8)
    (ha : a.Writes x) (_ : ¬ b.Writes x) : (sampleNext s a b).1 x = a.din :=
  if_pos ha

theorem sampleNext_b (s : (BitVec 8 → BitVec 32) × BitVec 32) (a b : BramPort) (x : BitVec 8)
    (ha : ¬ a.Writes x) (hb : b.Writes x) : (sampleNext s a b).1 x = b.din :=
  (if_neg ha).trans (if_pos hb)

theorem sampleNext_keep (s : (BitVec 8 → BitVec 32) × BitVec 32) (a b : BramPort) (x : BitVec 8)
    (ha : ¬ a.Writes x) (hb : ¬ b.Writes x) : (sampleNext s a b).1 x = s.1 x :=
  (if_neg ha).trans (if_neg hb)

theorem sampleNext_doutb (s : (BitVec 8 → BitVec 32) × BitVec 32) (a b : BramPort)
    (_ : ¬ a.Writes b.addr) (_ : b.wen = false) : (sampleNext s a b).2 = s.1 b.addr := rfl

def sampleBram : CsrBram where
  State := (BitVec 8 → BitVec 32) × BitVec 32
  init := (fun _ => 0, 0)
  next := sampleNext
  contents s := s.1
  doutb s := s.2
  contents_a := sampleNext_a
  contents_b := sampleNext_b
  contents_keep := sampleNext_keep
  doutb_next := sampleNext_doutb

/-- A clock in which nothing stalls and the FPGA does nothing. -/
def accessClock (tlp : Option OtherTlp) : HostClock where
  rx := ⟨false, false, 0, 0, tlp.map .other⟩
  tx := ⟨false, 0, false, 0, default, false, default, false, default, false, 0⟩
  hwChnlRst := false
  fpga := ⟨0, 0, false⟩
  csrInF2hReg0 := none
  pcieBar0RstAck := false

theorem readHeader_fmt : (0x000000010100020f#64).extractLsb' 56 7 ≠ pcieCpldFmtType := by decide

theorem writeHeader_fmt : (0x400000010100000f#64).extractLsb' 56 7 ≠ pcieCpldFmtType := by decide

/-- A read of the first regular CSR. -/
def readTlp : OtherTlp :=
  ⟨0x000000010100020f#64, [0x0000100000000000#64], readHeader_fmt, List.cons_ne_nil _ _⟩

/-- A write to it. -/
def writeTlp : OtherTlp :=
  ⟨0x400000010100000f#64, [0x0000100000000007#64], writeHeader_fmt, List.cons_ne_nil _ _⟩

theorem calm_accessClock {B : CsrBram} {tlp : Option OtherTlp}
    (h : tlp = none ∨ tlp = some readTlp ∨ tlp = some writeTlp) (s : HostSide B) :
    s.Calm (accessClock tlp) := by
  have hwen : ∀ x, ¬ (accessClock tlp).fpga.Writes x := by
    rintro x ⟨⟨⟩, -⟩
  refine ⟨rfl, fun o ho _ => ?_, fun _ => hwen _, fun _ _ => hwen _⟩
  rcases h with rfl | rfl | rfl
  · cases ho
  · cases ho
    rfl
  · cases ho
    rfl

namespace HostSide

variable {B : CsrBram}

def run (s : HostSide B) (l : List (Option OtherTlp)) : HostSide B :=
  l.foldl (fun s tlp => s.next (accessClock tlp)) s

/-- A condition holds in every step of a run. -/
def Along (P : HostSide B → HostClock → Prop) : HostSide B → List (Option OtherTlp) → Prop
  | _, [] => True
  | s, tlp :: l => P s (accessClock tlp) ∧ Along P (s.next (accessClock tlp)) l

instance decidableAlong (P : HostSide B → HostClock → Prop) [∀ s i, Decidable (P s i)] :
    ∀ s l, Decidable (Along P s l)
  | _, [] => .isTrue trivial
  | s, tlp :: l =>
    haveI := decidableAlong P (s.next (accessClock tlp)) l
    inferInstanceAs (Decidable (_ ∧ _))

theorem reachable_run {P : HostSide B → HostClock → Prop} {s : HostSide B}
    (h : (hostAccesses B P).Reachable s) {l : List (Option OtherTlp)}
    (hl : ∀ tlp ∈ l, tlp = none ∨ tlp = some readTlp ∨ tlp = some writeTlp)
    (hP : s.Along P l) : (hostAccesses B P).Reachable (s.run l) := by
  induction l generalizing s with
  | nil => exact h
  | cons tlp l ih =>
    refine ih (h.step ⟨_, calm_accessClock (hl tlp List.mem_cons_self) s, hP.1, rfl⟩)
      (fun tlp' h' => hl tlp' (List.mem_cons_of_mem _ h')) hP.2

end HostSide

/-- A write directly behind a read. -/
def readWriteRun : List (Option OtherTlp) :=
  [some readTlp, none, some writeTlp, none, none, none, none, none, none, none, none, none]

set_option maxRecDepth 4000 in
theorem read_then_write :
    ¬ ∀ (B : CsrBram) (s : HostSide B), (hostAccesses B fun _ _ => True).Reachable s →
      s.Faithful := by
  intro h
  have hreach : (hostAccesses sampleBram fun _ _ => True).Reachable
      (HostSide.run {} readWriteRun) := by
    refine HostSide.reachable_run (.init rfl) ?_ ?_
    · simp [readWriteRun]
    · simp [readWriteRun, HostSide.Along]
  obtain ⟨horder, -⟩ := (h _ _ hreach).settled (by decide) (by decide)
  revert horder
  decide

/-- A write, and a read well behind it. -/
def writeReadRun : List (Option OtherTlp) :=
  [some writeTlp, none, none, none, some readTlp, none, none, none, none, none, none, none, none,
    none]

set_option maxRecDepth 4000 in
theorem accesses_faithful_writeRead :
    (HostSide.run {} writeReadRun : HostSide sampleBram).Faithful ∧
      (HostSide.run {} writeReadRun : HostSide sampleBram).Answered :=
  accesses_faithful (HostSide.reachable_run (.init rfl) (by simp [writeReadRun]) (by decide))

end PcieCsr

end LeapPlatforms
