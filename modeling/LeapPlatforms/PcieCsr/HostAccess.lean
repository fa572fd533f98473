import LeapPlatforms.PcieCsr.RxPayload

/-!
# Accesses on the receive interface

The host reads or writes one DWord with a TLP of two quadwords. The receiver takes the fields of a
read from its header, and the address, or the address and the data, from the second quadword. It
shows an access for one clock behind its second quadword, while the header of the next read may
already go over the side registers.

## Main definitions

* `Access`, `accessOf` — what a TLP asks for
* `RxSide.headerTaken`, `RxSide.arrival` — what arrives in a clock
* `Passing` — the receiver shows the access that has just arrived
* `RxWrapper.pulse` — the access that it shows

## Main results

* `Passing.next`
* `Passing.mrd32Req_next` — the side registers of a read
-/

namespace LeapPlatforms

namespace PcieCsr

/-! ### Accesses -/

/-- An access of the host: a read with the fields of its header and its address, or a write. -/
inductive Access
  | read (r : Mrd32Req)
  | write (addr data : BitVec 32)
  deriving DecidableEq

/-- The header of a read of one DWord. -/
def IsRead (hd : BitVec 64) : Prop :=
  hd.extractLsb' 56 7 = pcieMrd32FmtType ∧ hd.extractLsb' 32 10 = 1

/-- The header of a write of one DWord. -/
def IsWrite (hd : BitVec 64) : Prop :=
  hd.extractLsb' 56 7 = pcieMwr32FmtType ∧ hd.extractLsb' 32 10 = 1

instance : DecidablePred IsRead := fun _ => inferInstanceAs (Decidable (_ ∧ _))

instance : DecidablePred IsWrite := fun _ => inferInstanceAs (Decidable (_ ∧ _))

/-- The fields of a read. -/
def requestOf (hd : BitVec 64) (addr : BitVec 32) : Mrd32Req where
  tc := hd.extractLsb' 52 3
  td := hd.extractLsb' 47 1
  ep := hd.extractLsb' 46 1
  attr := hd.extractLsb' 44 2
  len := hd.extractLsb' 32 10
  rid := hd.extractLsb' 16 16
  tag := hd.extractLsb' 8 8
  be := hd.extractLsb' 0 4
  addr := addr

/-- What a TLP asks for, from its two quadwords. -/
def accessOf (hd q : BitVec 64) : Option Access :=
  if IsRead hd then some (.read (requestOf hd (hiDw q)))
  else if IsWrite hd then some (.write (hiDw q) (loDw q))
  else none

theorem IsRead.not_isWrite {hd : BitVec 64} (h : IsRead hd) : ¬ IsWrite hd := by
  intro hw
  exact absurd (h.1.symm.trans hw.1) (by decide)

theorem accessOf_read {hd : BitVec 64} (h : IsRead hd) (q : BitVec 64) :
    accessOf hd q = some (.read (requestOf hd (hiDw q))) :=
  if_pos h

theorem accessOf_write {hd : BitVec 64} (h : IsWrite hd) (q : BitVec 64) :
    accessOf hd q = some (.write (hiDw q) (loDw q)) := by
  rw [accessOf, if_neg fun hr => hr.not_isWrite h, if_pos h]

theorem accessOf_none {hd : BitVec 64} (h : ¬ IsRead hd) (h' : ¬ IsWrite hd) (q : BitVec 64) :
    accessOf hd q = none := by
  rw [accessOf, if_neg h, if_neg h']

/-! ### What arrives -/

/-- The header of a TLP, no completion, that is next on the interface. -/
def Sending.otherHeader : Sending → Option (BitVec 64)
  | .other hd _ => some hd
  | _ => none

/-- The access whose last quadword is next on the interface, behind the header `hd`. -/
def Sending.access (hd : BitVec 64) : Sending → Option Access
  | .otherBody [q] => accessOf hd q
  | _ => none

namespace RxSide

variable (s : RxSide) (c : RxClock)

/-- What is taken in a clock. -/
def taken : Sending := if c.gap || s.rx.trnRdstRdyN then .idle else s.current c

/-- The header that is taken. -/
def headerTaken : Option (BitVec 64) := (s.taken c).otherHeader

/-- The access that arrives behind the header `hd`. -/
def arrival (hd : BitVec 64) : Option Access := (s.taken c).access hd

end RxSide

/-- The receiver is at its place of a TLP behind the header `hd`, and shows the access that has
arrived in the last clock. -/
structure Passing (s : RxSide) (hd : BitVec 64) (latest : Option Access) : Prop where
  receiving : s.Receiving
  /-- An access has two quadwords. -/
  header : ∀ h rest, s.sending = .other h rest → IsRead h ∨ IsWrite h → rest.length = 1
  body : ∀ rest, s.sending = .otherBody rest → IsRead hd ∨ IsWrite hd → rest.length = 1
  read : s.rx.pcieRxState = .mrd32Qw1 ↔ IsRead hd ∧ ∃ rest, s.sending = .otherBody rest
  write : s.rx.pcieRxState = .mwr32Qw1 ↔ IsWrite hd ∧ ∃ rest, s.sending = .otherBody rest
  fields : s.rx.pcieRxState = .mrd32Qw1 → s.rx.mrd32Req = requestOf hd s.rx.mrd32Req.addr
  rdStart : s.rx.csrRdStart = true ↔ ∃ r, latest = some (.read r)
  wrStart : s.rx.csrWrStart = true ↔ ∃ addr data, latest = some (.write addr data)
  shownRead : ∀ r, latest = some (.read r) → s.rx.mrd32Req = r
  shownWrite : ∀ addr data, latest = some (.write addr data) →
    s.rx.mwr32Addr = addr ∧ s.rx.mwr32Data = data
  quiet : s.rx.pcieRxState ≠ .rst → latest = none

theorem passing_start : Passing {} 0 none := by
  refine ⟨RxSide.receiving_start, ?_, ?_, ?_, ?_, ?_, ?_, ?_, ?_, ?_, fun _ => rfl⟩
  · rintro h rest ⟨⟩
  · rintro rest ⟨⟩
  · exact ⟨by rintro ⟨⟩, by rintro ⟨-, rest, ⟨⟩⟩⟩
  · exact ⟨by rintro ⟨⟩, by rintro ⟨-, rest, ⟨⟩⟩⟩
  · rintro ⟨⟩
  · exact ⟨by rintro ⟨⟩, by rintro ⟨r, ⟨⟩⟩⟩
  · exact ⟨by rintro ⟨⟩, by rintro ⟨a, d, ⟨⟩⟩⟩
  · rintro r ⟨⟩
  · rintro a d ⟨⟩

/-- The TLP that comes to the interface is no access, or one of two quadwords. -/
def RxClock.Plain (c : RxClock) : Prop :=
  ∀ o, c.tlp = some (.other o) → IsRead o.header ∨ IsWrite o.header → o.rest.length = 1

theorem Sending.rest_ne_other (x : Sending) (hd : BitVec 64) (l : List (BitVec 64)) :
    x.rest ≠ .other hd l := by
  rcases x with _ | _ | _ | ⟨_ | ⟨_, _ | _⟩⟩ | _ | l' <;> simp [Sending.rest]
  by_cases h : l'.tail = [] <;> simp [h]

variable {s : RxSide} {c : RxClock} {hd : BitVec 64} {latest : Option Access}

/-- A TLP comes to the interface. -/
theorem Passing.load (h : Passing s hd latest) (hplain : c.Plain) :
    Passing (s.load c) hd latest := by
  by_cases hidle : s.sending = .idle
  swap
  · rw [RxSide.load_of_busy hidle]
    exact h
  cases htlp : c.tlp with
  | none =>
    rw [RxSide.load_of_none htlp]
    exact h
  | some tlp =>
    have hsending : (s.load c).sending = s.current c := rfl
    rw [RxSide.current, hidle, htlp] at hsending
    have hbody : ∀ rest, (s.load c).sending ≠ .otherBody rest := by
      rw [hsending]
      cases tlp <;> simp
    have hnone : ∀ rest, s.sending ≠ .otherBody rest := by
      rw [hidle]
      simp
    have hread : s.rx.pcieRxState ≠ .mrd32Qw1 := fun hstate =>
      (h.read.mp hstate).2.elim hnone
    have hwrite : s.rx.pcieRxState ≠ .mwr32Qw1 := fun hstate =>
      (h.write.mp hstate).2.elim hnone
    refine ⟨h.receiving.load, fun hd' rest hother haccess => ?_,
      fun rest hother => absurd hother (hbody rest), ?_, ?_, h.fields, h.rdStart, h.wrStart,
      h.shownRead, h.shownWrite, h.quiet⟩
    · rw [hsending] at hother
      cases tlp with
      | completion p => cases hother
      | other o =>
        cases hother
        exact hplain o htlp haccess
    · exact ⟨fun hstate => absurd hstate hread,
        fun hr => hr.2.elim fun r hr' => absurd hr' (hbody r)⟩
    · exact ⟨fun hstate => absurd hstate hwrite,
        fun hr => hr.2.elim fun r hr' => absurd hr' (hbody r)⟩

/-- A header that is taken, not one of a completion. -/
theorem RxWrapper.nextRst_other {s : RxWrapper} {i : RxIn} (hsof : i.trnRsofN = false)
    (hsrc : i.trnRsrcRdyN = false) (hfmt : i.trnRd.extractLsb' 56 7 ≠ pcieCpldFmtType) :
    s.nextRst i =
      { s with
        csrRdStart := false, csrWrStart := false, cpldRecvFinish := false, h2fFifoWen := false
        mrd32Req :=
          if IsRead i.trnRd then requestOf i.trnRd s.mrd32Req.addr else s.mrd32Req
        pcieRxState :=
          if IsRead i.trnRd then .mrd32Qw1 else if IsWrite i.trnRd then .mwr32Qw1
          else s.pcieRxState } := by
  rw [nextRst, if_pos ⟨hsof, hsrc⟩]
  by_cases hread : i.trnRd.extractLsb' 56 7 = pcieMrd32FmtType
  · have hwrite : ¬ IsWrite i.trnRd := fun hw => absurd (hread.symm.trans hw.1) (by decide)
    rw [if_pos hread]
    by_cases hlen : i.trnRd.extractLsb' 32 10 = 1
    · rw [if_pos hlen, if_pos ⟨hread, hlen⟩, if_pos ⟨hread, hlen⟩]
      rfl
    · have hnot : ¬ IsRead i.trnRd := fun hr => hlen hr.2
      rw [if_neg hlen, if_neg hnot, if_neg hnot, if_neg hwrite]
  · have hnot : ¬ IsRead i.trnRd := fun hr => hread hr.1
    rw [if_neg hread, if_neg hnot, if_neg hnot]
    by_cases hwrite : i.trnRd.extractLsb' 56 7 = pcieMwr32FmtType
    · rw [if_pos hwrite]
      by_cases hlen : i.trnRd.extractLsb' 32 10 = 1
      · rw [if_pos hlen, if_pos ⟨hwrite, hlen⟩]
      · rw [if_neg hlen, if_neg fun hw => hlen hw.2]
    · rw [if_neg hwrite, if_neg hfmt, if_neg fun hw => hwrite hw.1]

/-- No access is shown. -/
theorem Passing.of_silent {t : RxSide} {hd : BitVec 64} (hreceiving : t.Receiving)
    (hheader : ∀ h rest, t.sending = .other h rest → IsRead h ∨ IsWrite h → rest.length = 1)
    (hbody : ∀ rest, t.sending = .otherBody rest → IsRead hd ∨ IsWrite hd → rest.length = 1)
    (hread : t.rx.pcieRxState = .mrd32Qw1 ↔ IsRead hd ∧ ∃ rest, t.sending = .otherBody rest)
    (hwrite : t.rx.pcieRxState = .mwr32Qw1 ↔ IsWrite hd ∧ ∃ rest, t.sending = .otherBody rest)
    (hfields : t.rx.pcieRxState = .mrd32Qw1 → t.rx.mrd32Req = requestOf hd t.rx.mrd32Req.addr)
    (hrd : t.rx.csrRdStart = false) (hwr : t.rx.csrWrStart = false) : Passing t hd none := by
  refine ⟨hreceiving, hheader, hbody, hread, hwrite, hfields, ?_, ?_, ?_, ?_, fun _ => rfl⟩
  · rw [hrd]
    exact ⟨by rintro ⟨⟩, by rintro ⟨r, ⟨⟩⟩⟩
  · rw [hwr]
    exact ⟨by rintro ⟨⟩, by rintro ⟨a, d, ⟨⟩⟩⟩
  · rintro r ⟨⟩
  · rintro a d ⟨⟩

/-- Behind the header of an access the receiver does not wait for another. -/
theorem Passing.not_access (h : Passing s hd latest) (hstate : s.rx.pcieRxState = .rst)
    {rest : List (BitVec 64)} (hs : s.sending = .otherBody rest) : ¬ IsRead hd ∧ ¬ IsWrite hd := by
  constructor
  · intro hr
    exact absurd (hstate.symm.trans (h.read.mpr ⟨hr, rest, hs⟩)) (by decide)
  · intro hw
    exact absurd (hstate.symm.trans (h.write.mpr ⟨hw, rest, hs⟩)) (by decide)

/-- The receiver waits for a header, and none that it wants comes. -/
theorem Passing.clock_quiet (h : Passing s hd latest) (hstate : s.rx.pcieRxState = .rst)
    (hrx : (s.clock c).rx.pcieRxState = .rst ∧ (s.clock c).rx.csrRdStart = false ∧
      (s.clock c).rx.csrWrStart = false)
    (hother : ∀ h' rest, (s.clock c).sending = .other h' rest → s.sending = .other h' rest)
    (hbody : ∀ rest, (s.clock c).sending = .otherBody rest →
      ∃ rest', s.sending = .otherBody rest') :
    Passing (s.clock c) hd none := by
  obtain ⟨hrst, hrd, hwr⟩ := hrx
  have hnone : ∀ rest, (s.clock c).sending = .otherBody rest → ¬ IsRead hd ∧ ¬ IsWrite hd := by
    intro rest hs
    obtain ⟨rest', hs'⟩ := hbody rest hs
    exact h.not_access hstate hs'
  refine .of_silent ?_ (fun h' rest hs => h.header h' rest (hother h' rest hs))
    (fun rest hs haccess => ?_) ?_ ?_ ?_ hrd hwr
  · exact h.receiving.clock
  · obtain ⟨hr, hw⟩ := hnone rest hs
    exact absurd haccess (not_or.mpr ⟨hr, hw⟩)
  · rw [hrst]
    exact ⟨by rintro ⟨⟩, fun hread => hread.2.elim fun rest hs => absurd hread.1 (hnone rest hs).1⟩
  · rw [hrst]
    exact ⟨by rintro ⟨⟩,
      fun hwrite => hwrite.2.elim fun rest hs => absurd hwrite.1 (hnone rest hs).2⟩
  · rw [hrst]
    rintro ⟨⟩

/-- The receiver waits for a header. -/
theorem Passing.clock_rst (h : Passing s hd latest) (hstate : s.rx.pcieRxState = .rst) {x : Sending}
    (hx : x = if c.gap || s.rx.trnRdstRdyN then .idle else s.sending) :
    Passing (s.clock c) (x.otherHeader.getD hd) (x.access hd) := by
  have hmeets := h.receiving.meets
  have hready := h.receiving.ready
  rw [RxWrapper.Meets, hstate] at hmeets
  rw [hstate] at hready
  have hrx : (s.clock c).rx = s.rx.nextRst (s.rxIn c) := by
    show s.rx.next _ = _
    rw [RxWrapper.next, hstate]
  by_cases hgap : c.gap = true ∨ s.sending = .idle
  · have hsrc := RxSide.rxIn_gap hgap
    have hsame := RxSide.sending_gap hgap
    have hidle : x = .idle := by
      rw [hx]
      rcases hgap with hgap | hidle
      · rw [hgap]
        rfl
      · rw [hidle, ite_self]
    rw [hidle]
    refine h.clock_quiet hstate ?_ (fun h' rest hs => hsame ▸ hs) fun rest hs => ⟨rest, hsame ▸ hs⟩
    rw [hrx, RxWrapper.nextRst]
    simp [hsrc, hstate]
  obtain ⟨hgap, hidle⟩ := not_or.mp hgap
  replace hgap : c.gap = false := by simpa using hgap
  have hnext := RxSide.sending_taken h.receiving hgap (by rw [hstate]; decide)
  rw [hgap, hready] at hx
  replace hx : x = s.sending := hx
  rw [hx]
  cases hs : s.sending with
  | idle => exact absurd hs hidle
  | first p => exact absurd hs (hmeets.1 p)
  | body p => exact absurd hs (hmeets.2 p)
  | header hd' p =>
    have hwf := h.receiving.wf
    rw [hs] at hnext hwf
    have hrx' := RxSide.rx_header hstate hs hgap hwf.1
    refine .of_silent h.receiving.clock ?_ ?_ ?_ ?_ ?_ ?_ ?_
    · rw [hnext]
      rintro h' rest ⟨⟩
    · rw [hnext]
      rintro rest ⟨⟩
    · rw [hrx', hnext]
      exact ⟨by rintro ⟨⟩, by rintro ⟨-, rest, ⟨⟩⟩⟩
    · rw [hrx', hnext]
      exact ⟨by rintro ⟨⟩, by rintro ⟨-, rest, ⟨⟩⟩⟩
    · rw [hrx']
      rintro ⟨⟩
    · rw [hrx']
    · rw [hrx']
  | otherBody rest =>
    obtain ⟨hr, hw⟩ := h.not_access hstate hs
    have hnone : Sending.access hd (.otherBody rest) = none := by
      rcases rest with _ | ⟨q, _ | _⟩
      · rfl
      · exact accessOf_none hr hw q
      · rfl
    rw [hnone]
    refine h.clock_quiet hstate ?_ (fun h' l hl => ?_) fun l _ => ⟨rest, hs⟩
    · rw [hrx, RxWrapper.nextRst]
      simp [RxSide.rxIn, hs, Sending.beat, hstate]
    · rw [hnext] at hl
      exact absurd hl (Sending.rest_ne_other _ _ _)
  | other hd' rest =>
    have hlen := h.header hd' rest hs
    have hin : s.rxIn c = ⟨hd', false, true, false, c.trnRbarHitN, c.h2fFifoFull⟩ := by
      simp [RxSide.rxIn, hs, Sending.beat, hgap]
    rw [hs] at hnext
    have hwf := h.receiving.wf
    rw [hs] at hwf
    have hrx' := hrx.trans (RxWrapper.nextRst_other (by rw [hin]) (by rw [hin])
      (by rw [hin]; exact hwf.1))
    rw [hin, hstate] at hrx'
    have hiff : ∀ l, (s.clock c).sending = .otherBody l ↔ l = rest := by
      intro l
      rw [hnext]
      exact ⟨fun hl => (Sending.otherBody.inj hl).symm, fun hl => congrArg _ hl.symm⟩
    refine .of_silent h.receiving.clock (fun h' l hl => ?_) (fun l hl haccess => ?_) ?_ ?_ ?_ ?_ ?_
    · rw [hnext] at hl
      cases hl
    · rw [(hiff l).mp hl]
      exact hlen haccess
    · rw [hrx']
      by_cases hr : IsRead hd'
      · exact ⟨fun _ => ⟨hr, rest, hnext⟩, fun _ => if_pos hr⟩
      · refine ⟨fun hst => ?_, fun hread => absurd hread.1 hr⟩
        dsimp only at hst
        rw [if_neg hr] at hst
        split at hst <;> cases hst
    · rw [hrx']
      by_cases hw : IsWrite hd'
      · have hr : ¬ IsRead hd' := fun hr => hr.not_isWrite hw
        refine ⟨fun _ => ⟨hw, rest, hnext⟩, fun _ => ?_⟩
        dsimp only
        rw [if_neg hr, if_pos hw]
      · refine ⟨fun hst => ?_, fun hwrite => absurd hwrite.1 hw⟩
        dsimp only at hst
        rw [if_neg hw] at hst
        split at hst <;> cases hst
    · rw [hrx']
      intro hst
      dsimp only at hst ⊢
      have hr : IsRead hd' := by
        by_contra hr
        rw [if_neg hr] at hst
        split at hst <;> cases hst
      rw [if_pos hr]
      rfl
    · rw [hrx']
    · rw [hrx']

/-- The receiver waits for the second quadword of an access, and the endpoint leaves a gap. -/
theorem Passing.clock_gap (h : Passing s hd latest)
    (hstate : s.rx.pcieRxState = .mrd32Qw1 ∨ s.rx.pcieRxState = .mwr32Qw1)
    (hgap : c.gap = true) : Passing (s.clock c) hd none := by
  have hsrc := RxSide.rxIn_gap (s := s) (.inl hgap)
  have hsame := RxSide.sending_gap (s := s) (.inl hgap)
  have hrx : (s.clock c).rx = s.rx := by
    show s.rx.next _ = _
    rw [RxWrapper.next]
    rcases hstate with hst | hst <;> simp [hst, hsrc]
  have hlatest : latest = none := h.quiet (by rcases hstate with hst | hst <;> rw [hst] <;> decide)
  subst hlatest
  have hreceiving := h.receiving.clock (c := c)
  exact ⟨hreceiving, hsame ▸ h.header, hsame ▸ h.body, by rw [hrx, hsame]; exact h.read,
    by rw [hrx, hsame]; exact h.write, by rw [hrx]; exact h.fields, by rw [hrx]; exact h.rdStart,
    by rw [hrx]; exact h.wrStart, by rw [hrx]; exact h.shownRead, by rw [hrx]; exact h.shownWrite,
    fun _ => rfl⟩

/-- The second quadword of an access is taken, and the access is shown. -/
theorem Passing.clock_access (h : Passing s hd latest)
    (hstate : s.rx.pcieRxState = .mrd32Qw1 ∨ s.rx.pcieRxState = .mwr32Qw1)
    (hgap : c.gap = false) : ∃ q, s.sending = .otherBody [q] ∧
      Passing (s.clock c) hd (accessOf hd q) := by
  have haccess : (IsRead hd ∨ IsWrite hd) ∧ ∃ rest, s.sending = .otherBody rest := by
    rcases hstate with hst | hst
    · exact ⟨.inl (h.read.mp hst).1, (h.read.mp hst).2⟩
    · exact ⟨.inr (h.write.mp hst).1, (h.write.mp hst).2⟩
  obtain ⟨haccess, rest, hs⟩ := haccess
  obtain ⟨q, rfl⟩ := List.length_eq_one_iff.mp (h.body rest hs haccess)
  refine ⟨q, hs, ?_⟩
  have hnext := RxSide.sending_taken h.receiving hgap (by
    rcases hstate with hst | hst <;> rw [hst] <;> decide)
  rw [hs] at hnext
  replace hnext : (s.clock c).sending = .idle := hnext
  have hin : s.rxIn c = ⟨q, true, false, false, c.trnRbarHitN, c.h2fFifoFull⟩ := by
    simp [RxSide.rxIn, hs, Sending.beat, hgap]
  have hlatest : latest = none := h.quiet (by rcases hstate with hst | hst <;> rw [hst] <;> decide)
  subst hlatest
  have hrd : s.rx.csrRdStart = false := by
    by_contra hrd
    obtain ⟨r, hr⟩ := h.rdStart.mp (by simpa using hrd)
    cases hr
  have hwr : s.rx.csrWrStart = false := by
    by_contra hwr
    obtain ⟨a, d, hw⟩ := h.wrStart.mp (by simpa using hwr)
    cases hw
  have hrx : (s.clock c).rx = s.rx.next (s.rxIn c) := rfl
  have hrst : (s.clock c).rx.pcieRxState = .rst := by
    rw [hrx, hin, RxWrapper.next]
    rcases hstate with hst | hst <;> simp [hst]
  have hheader : ∀ h' l, (s.clock c).sending = .other h' l →
      IsRead h' ∨ IsWrite h' → l.length = 1 := by
    rw [hnext]
    rintro h' l ⟨⟩
  have hbody : ∀ l, (s.clock c).sending ≠ .otherBody l := by
    rw [hnext]
    rintro l ⟨⟩
  have hread : (s.clock c).rx.pcieRxState = .mrd32Qw1 ↔
      IsRead hd ∧ ∃ rest, (s.clock c).sending = .otherBody rest := by
    rw [hrst]
    exact ⟨by rintro ⟨⟩, fun hr => hr.2.elim fun l hl => absurd hl (hbody l)⟩
  have hwrite : (s.clock c).rx.pcieRxState = .mwr32Qw1 ↔
      IsWrite hd ∧ ∃ rest, (s.clock c).sending = .otherBody rest := by
    rw [hrst]
    exact ⟨by rintro ⟨⟩, fun hr => hr.2.elim fun l hl => absurd hl (hbody l)⟩
  have hfields : (s.clock c).rx.pcieRxState = .mrd32Qw1 →
      (s.clock c).rx.mrd32Req = requestOf hd (s.clock c).rx.mrd32Req.addr := by
    rw [hrst]
    rintro ⟨⟩
  rcases hstate with hst | hst
  · have hr := (h.read.mp hst).1
    have hreq := h.fields hst
    have hrx' : (s.clock c).rx =
        { s.rx with
          mrd32Req := requestOf hd (hiDw q), mrd32ReqBar := c.trnRbarHitN.getLsbD 0
          csrRdStart := true, pcieRxState := .rst } := by
      rw [hrx, hin, RxWrapper.next, hst]
      simp only [and_self, if_true]
      rw [hreq]
      rfl
    rw [accessOf_read hr]
    refine ⟨h.receiving.clock, hheader, fun l hl => absurd hl (hbody l), hread, hwrite, hfields,
      ⟨fun _ => ⟨_, rfl⟩, fun _ => ?_⟩, ⟨fun hw => ?_, by rintro ⟨a, d, ⟨⟩⟩⟩, ?_, ?_,
      fun hne => absurd hrst hne⟩
    · rw [hrx']
    · rw [hrx'] at hw
      exact absurd (hwr.symm.trans hw) (by decide)
    · rintro r ⟨⟩
      rw [hrx']
    · rintro a d ⟨⟩
  · have hw := (h.write.mp hst).1
    have hrx' : (s.clock c).rx =
        { s.rx with
          mwr32Addr := hiDw q, mwr32Data := loDw q, csrWrStart := true, pcieRxState := .rst } := by
      rw [hrx, hin, RxWrapper.next, hst]
      rfl
    rw [accessOf_write hw]
    refine ⟨h.receiving.clock, hheader, fun l hl => absurd hl (hbody l), hread, hwrite, hfields,
      ⟨fun hr => ?_, by rintro ⟨r, ⟨⟩⟩⟩, ⟨fun _ => ⟨_, _, rfl⟩, fun _ => ?_⟩, ?_, ?_,
      fun hne => absurd hrst hne⟩
    · rw [hrx'] at hr
      exact absurd (hrd.symm.trans hr) (by decide)
    · rw [hrx']
    · rintro r ⟨⟩
    · rintro a d ⟨⟩
      rw [hrx']
      exact ⟨rfl, rfl⟩

/-- A completion leaves the registers of an access as they are. -/
theorem RxWrapper.next_cpld {s : RxWrapper} {i : RxIn} (hstate : s.pcieRxState = .cpldQw1 ∨
    s.pcieRxState = .cpldQwn ∨ s.pcieRxState = .cpldQwnw) :
    (s.next i).mrd32Req = s.mrd32Req ∧ (s.next i).csrRdStart = s.csrRdStart ∧
      (s.next i).csrWrStart = s.csrWrStart := by
  rcases hstate with hst | hst | hst
  · rw [next, hst]
    simp only
    split
    · exact ⟨rfl, rfl, rfl⟩
    · exact ⟨rfl, rfl, rfl⟩
  · obtain ⟨pre1, pre2, sel, heq⟩ := (s.writePair i.trnRd).keepSecond_eq i.trnRd
    rw [next, hst]
    simp only [nextCpldQwn, heq]
    split
    · split
      · split
        · exact ⟨rfl, rfl, rfl⟩
        · exact ⟨rfl, rfl, rfl⟩
      · exact ⟨rfl, rfl, rfl⟩
    · split
      · exact ⟨rfl, rfl, rfl⟩
      · exact ⟨rfl, rfl, rfl⟩
  · obtain ⟨pre1, pre2, sel, heq⟩ := (s.writePair s.wrDataTmp).keepSecond_eq s.wrDataTmp
    rw [next, hst]
    simp only [nextCpldQwnw, heq]
    split
    · split
      · exact ⟨rfl, rfl, rfl⟩
      · exact ⟨rfl, rfl, rfl⟩
    · exact ⟨rfl, rfl, rfl⟩

/-- In a completion nothing else is taken, and nothing else is left on the interface. -/
theorem RxSide.taken_cpld (h : s.Receiving) (hstate : s.rx.pcieRxState = .cpldQw1 ∨
    s.rx.pcieRxState = .cpldQwn ∨ s.rx.pcieRxState = .cpldQwnw) {x : Sending}
    (hx : x = if c.gap || s.rx.trnRdstRdyN then .idle else s.sending) :
    x.otherHeader = none ∧ x.access hd = none ∧ (∀ l, (s.clock c).sending ≠ .otherBody l) ∧
      ∀ h' l, (s.clock c).sending = .other h' l → s.sending = .other h' l := by
  have hmeets := h.meets
  have hready := h.ready
  rw [RxWrapper.Meets] at hmeets
  -- a quadword of the payload is left, or the endpoint is held back
  have hplace : (∃ p, s.sending = .first p ∨ s.sending = .body p) ∨
      s.rx.trnRdstRdyN = true ∧ ∀ l, s.sending ≠ .otherBody l := by
    rcases hstate with hst | hst | hst <;> rw [hst] at hmeets hready
    · obtain ⟨p, hp⟩ := hmeets
      exact .inl ⟨p, .inl hp⟩
    · obtain ⟨p, hp⟩ := hmeets
      exact .inl ⟨p, .inr hp⟩
    · cases heof : s.rx.tlpEof with
      | true =>
        rw [heof] at hmeets
        exact .inr ⟨hready, hmeets.2.2⟩
      | false =>
        rw [heof] at hmeets
        obtain ⟨p, hp⟩ := hmeets
        exact .inl ⟨p, .inr hp⟩
  have hbody : ∀ l, s.sending ≠ .otherBody l := by
    rcases hplace with ⟨p, hp | hp⟩ | ⟨-, hne⟩
    · rw [hp]
      rintro l ⟨⟩
    · rw [hp]
      rintro l ⟨⟩
    · exact hne
  rw [RxSide.clock]
  by_cases hheld : (c.gap || s.rx.trnRdstRdyN) = true
  · rw [if_pos hheld] at hx
    rw [hx]
    refine ⟨rfl, rfl, ?_, ?_⟩
    · simpa only [if_pos hheld] using hbody
    · simp only [if_pos hheld]
      exact fun _ _ heq => heq
  · rw [if_neg hheld] at hx
    rw [hx]
    simp only [if_neg hheld]
    rcases hplace with ⟨p, hp | hp⟩ | ⟨hrdy, -⟩
    · rw [hp]
      exact ⟨rfl, rfl, (by rintro l ⟨⟩), by rintro h' l ⟨⟩⟩
    · rw [hp]
      refine ⟨rfl, rfl, ?_, fun h' l heq => absurd heq (Sending.rest_ne_other _ _ _)⟩
      rcases p with _ | ⟨d, _ | ⟨e, p⟩⟩
      · rintro l ⟨⟩
      · rintro l ⟨⟩
      · rintro l ⟨⟩
    · rw [hrdy, Bool.or_true] at hheld
      exact absurd rfl hheld

/-- The receiver is in a completion. -/
theorem Passing.clock_cpld (h : Passing s hd latest) (hstate : s.rx.pcieRxState = .cpldQw1 ∨
    s.rx.pcieRxState = .cpldQwn ∨ s.rx.pcieRxState = .cpldQwnw) {x : Sending}
    (hx : x = if c.gap || s.rx.trnRdstRdyN then .idle else s.sending) :
    Passing (s.clock c) (x.otherHeader.getD hd) (x.access hd) := by
  obtain ⟨hnone, haccess, hbody, hother⟩ : _ ∧ x.access hd = none ∧ _ :=
    RxSide.taken_cpld h.receiving hstate hx
  obtain ⟨-, hrd, hwr⟩ := RxWrapper.next_cpld (i := s.rxIn c) hstate
  have hgoes := (RxWrapper.goesOn_next (i := s.rxIn c) hstate).2
  have hrx : (s.clock c).rx = s.rx.next (s.rxIn c) := rfl
  have hlatest : latest = none := h.quiet (by
    rcases hstate with hst | hst | hst <;> rw [hst] <;> decide)
  subst hlatest
  have hstate' : (s.clock c).rx.pcieRxState ≠ .mrd32Qw1 ∧
      (s.clock c).rx.pcieRxState ≠ .mwr32Qw1 := by
    rw [hrx]
    rcases hgoes with ⟨hst, -⟩ | ⟨hst | hst | hst, -⟩ <;> rw [hst] <;> decide
  rw [hnone, haccess]
  refine .of_silent h.receiving.clock (fun h' l heq => h.header h' l (hother h' l heq))
    (fun l heq => absurd heq (hbody l)) ?_ ?_ (fun hst => absurd hst hstate'.1) ?_ ?_
  · exact ⟨fun hst => absurd hst hstate'.1, fun hr => hr.2.elim fun l hl => absurd hl (hbody l)⟩
  · exact ⟨fun hst => absurd hst hstate'.2, fun hr => hr.2.elim fun l hl => absurd hl (hbody l)⟩
  · rw [hrx, hrd]
    by_contra hrd'
    obtain ⟨r, hr⟩ := h.rdStart.mp (by simpa using hrd')
    cases hr
  · rw [hrx, hwr]
    by_contra hwr'
    obtain ⟨a, d, hw⟩ := h.wrStart.mp (by simpa using hwr')
    cases hw

/-- A clock behind the interface. -/
theorem Passing.clock (h : Passing s hd latest) {x : Sending}
    (hx : x = if c.gap || s.rx.trnRdstRdyN then .idle else s.sending) :
    Passing (s.clock c) (x.otherHeader.getD hd) (x.access hd) := by
  have hready := h.receiving.ready
  have haccess : s.rx.pcieRxState = .mrd32Qw1 ∨ s.rx.pcieRxState = .mwr32Qw1 →
      Passing (s.clock c) (x.otherHeader.getD hd) (x.access hd) := by
    intro hstate
    cases hgap : c.gap with
    | true =>
      rw [hgap] at hx
      rw [hx]
      exact h.clock_gap hstate hgap
    | false =>
      obtain ⟨q, hs, hpassing⟩ := h.clock_access hstate hgap
      have hx' : x = .otherBody [q] := by
        rw [hx, hgap, hready, hs]
        rcases hstate with hst | hst <;> rw [hst] <;> rfl
      rw [hx']
      exact hpassing
  cases hstate : s.rx.pcieRxState with
  | rst => exact h.clock_rst hstate hx
  | mrd32Qw1 => exact haccess (.inl hstate)
  | mwr32Qw1 => exact haccess (.inr hstate)
  | cpldQw1 => exact h.clock_cpld (.inl hstate) hx
  | cpldQwn => exact h.clock_cpld (.inr (.inl hstate)) hx
  | cpldQwnw => exact h.clock_cpld (.inr (.inr hstate)) hx

/-- **A clock**: the access that arrives is shown. -/
theorem Passing.next (h : Passing s hd latest) (hplain : c.Plain) :
    Passing (s.next c) ((s.headerTaken c).getD hd) (s.arrival c hd) :=
  (h.load hplain).clock rfl

/-! ### What is shown -/

/-- The access that the receiver shows. -/
def RxWrapper.pulse (s : RxWrapper) : Option Access :=
  if s.csrWrStart then some (.write s.mwr32Addr s.mwr32Data)
  else if s.csrRdStart then some (.read s.mrd32Req)
  else none

theorem Passing.pulse_eq (h : Passing s hd latest) : s.rx.pulse = latest := by
  rw [RxWrapper.pulse]
  cases hlatest : latest with
  | none =>
    rw [if_neg fun hwr => ?_, if_neg fun hrd => ?_]
    · obtain ⟨r, hr⟩ := h.rdStart.mp hrd
      rw [hlatest] at hr
      cases hr
    · obtain ⟨a, d, hw⟩ := h.wrStart.mp hwr
      rw [hlatest] at hw
      cases hw
  | some access =>
    cases access with
    | read r =>
      rw [if_neg fun hwr => ?_, if_pos (h.rdStart.mpr ⟨r, hlatest⟩), h.shownRead r hlatest]
      obtain ⟨a, d, hw⟩ := h.wrStart.mp hwr
      rw [hlatest] at hw
      cases hw
    | write a d =>
      obtain ⟨haddr, hdata⟩ := h.shownWrite a d hlatest
      rw [if_pos (h.wrStart.mpr ⟨a, d, hlatest⟩), haddr, hdata]

/-- The header that is taken goes over the side registers of a read. -/
theorem Passing.mrd32Req_clock_rst (h : Passing s hd latest) (hstate : s.rx.pcieRxState = .rst)
    {x : Sending} (hx : x = if c.gap || s.rx.trnRdstRdyN then .idle else s.sending) :
    (s.clock c).rx.mrd32Req = s.rx.mrd32Req ∨ ∃ hd', x.otherHeader = some hd' ∧ IsRead hd' ∧
      (s.clock c).rx.mrd32Req = requestOf hd' s.rx.mrd32Req.addr := by
  have hready := h.receiving.ready
  have hwf := h.receiving.wf
  rw [hstate] at hready
  have hrx : (s.clock c).rx = s.rx.nextRst (s.rxIn c) := by
    show s.rx.next _ = _
    rw [RxWrapper.next, hstate]
  have hquiet : ¬ ((s.rxIn c).trnRsofN = false ∧ (s.rxIn c).trnRsrcRdyN = false) →
      (s.clock c).rx.mrd32Req = s.rx.mrd32Req := by
    intro hnot
    rw [hrx, RxWrapper.nextRst, if_neg hnot]
  by_cases hgap : c.gap = true ∨ s.sending = .idle
  · refine .inl (hquiet fun hin => ?_)
    exact absurd (hin.2.symm.trans (RxSide.rxIn_gap hgap)) (by decide)
  obtain ⟨hgap, hidle⟩ := not_or.mp hgap
  replace hgap : c.gap = false := by simpa using hgap
  rw [hgap, hready] at hx
  replace hx : x = s.sending := hx
  rw [hx]
  cases hs : s.sending with
  | header hd' p =>
    rw [hs] at hwf
    left
    rw [RxSide.rx_header hstate hs hgap hwf.1]
  | other hd' rest =>
    rw [hs] at hwf
    have hin : s.rxIn c = ⟨hd', false, true, false, c.trnRbarHitN, c.h2fFifoFull⟩ := by
      simp [RxSide.rxIn, hs, Sending.beat, hgap]
    have hreq : (s.clock c).rx.mrd32Req =
        if IsRead hd' then requestOf hd' s.rx.mrd32Req.addr else s.rx.mrd32Req := by
      rw [hrx, RxWrapper.nextRst_other (by rw [hin]) (by rw [hin]) (by rw [hin]; exact hwf.1), hin]
    by_cases hr : IsRead hd'
    · rw [if_pos hr] at hreq
      exact .inr ⟨hd', rfl, hr, hreq⟩
    · rw [if_neg hr] at hreq
      exact .inl hreq
  | idle => exact absurd hs hidle
  | body p =>
    refine .inl (hquiet fun hin => absurd hin.1 ?_)
    rcases p with _ | ⟨d, _ | ⟨e, p⟩⟩ <;> simp [RxSide.rxIn, hs, Sending.beat]
  | first p | otherBody l =>
    refine .inl (hquiet fun hin => absurd hin.1 ?_)
    simp [RxSide.rxIn, hs, Sending.beat]

/-- **The side registers of a read** stay until the header of the next read is taken, or its
address arrives. -/
theorem Passing.mrd32Req_next (h : Passing s hd latest) (hplain : c.Plain)
    (harrival : ∀ r, s.arrival c hd ≠ some (.read r)) :
    (s.next c).rx.mrd32Req = s.rx.mrd32Req ∨ ∃ hd', s.headerTaken c = some hd' ∧ IsRead hd' ∧
      (s.next c).rx.mrd32Req = requestOf hd' s.rx.mrd32Req.addr := by
  have hload := h.load hplain
  cases hstate : s.rx.pcieRxState with
  | rst => exact hload.mrd32Req_clock_rst hstate rfl
  | mrd32Qw1 =>
    left
    cases hgap : c.gap with
    | true =>
      show ((s.load c).rx.next _).mrd32Req = _
      rw [RxWrapper.next, show (s.load c).rx.pcieRxState = .mrd32Qw1 from hstate]
      simp only
      rw [if_neg fun hin => absurd (hin.2.symm.trans (RxSide.rxIn_gap (.inl hgap))) (by decide)]
      rfl
    | false =>
      obtain ⟨q, hs, -⟩ := hload.clock_access (.inl hstate) hgap
      have hr := (hload.read.mp hstate).1
      have htaken : s.taken c = .otherBody [q] := by
        have hready : s.rx.trnRdstRdyN = false := by
          rw [h.receiving.ready, hstate]
          rfl
        rw [RxSide.taken, hgap, hready]
        exact hs
      refine absurd ?_ (harrival (requestOf hd (hiDw q)))
      rw [RxSide.arrival, htaken]
      exact accessOf_read hr q
  | mwr32Qw1 =>
    left
    show ((s.load c).rx.next _).mrd32Req = _
    rw [RxWrapper.next, show (s.load c).rx.pcieRxState = .mwr32Qw1 from hstate]
    simp only
    split <;> rfl
  | cpldQw1 => exact .inl (RxWrapper.next_cpld (.inl hstate)).1
  | cpldQwn => exact .inl (RxWrapper.next_cpld (.inr (.inl hstate))).1
  | cpldQwnw => exact .inl (RxWrapper.next_cpld (.inr (.inr hstate))).1

end PcieCsr

end LeapPlatforms
