import LeapPlatforms.PcieCsr.RxWrapper
import Mathlib.Data.List.Flatten

/-!
# The payload of completions

Completions arrive on the receive interface with gaps, among other TLPs, and the FIFO may be almost
full at any time. The receiver writes the DWords of each completion in pairs, in order and each
once.

## Main definitions

* `Completion`, `OtherTlp`, `Sending` — what the endpoint is about to pass on
* `RxSide`, `RxClock`, `RxSide.next` — the receiver, the TLP before it and the FIFO behind it
* `RxWrapper.held`, `RxWrapper.pending`, `Sending.coming`, `RxSide.Receiving`
* `RxSide.announced`, `uncounted`, `EndWritten`, `Short`

## Main results

* `RxSide.Receiving.next` — a clock keeps the order of the DWords
* `RxSide.Receiving.announced_next`, `uncounted_next` — the end of each completion is shown once,
  with its length
-/

namespace LeapPlatforms

namespace PcieCsr

/-! ### TLPs on the receive interface -/

/-- A completion with an even number of DWords, up to 1024. -/
structure Completion where
  header : BitVec 64
  payload : List (BitVec 32)
  fmtType : header.extractLsb' 56 7 = pcieCpldFmtType
  even : payload.length % 2 = 0
  positive : 0 < payload.length
  len : dwords (header.extractLsb' 32 10) = payload.length

/-- Another TLP, of at least two quadwords. -/
structure OtherTlp where
  header : BitVec 64
  rest : List (BitVec 64)
  fmtType : header.extractLsb' 56 7 ≠ pcieCpldFmtType
  long : rest ≠ []

/-- A TLP of the host. -/
inductive HostTlp
  | completion (c : Completion)
  | other (o : OtherTlp)

/-- What is left of the TLP on the interface. -/
inductive Sending
  | idle
  /-- A completion with its header to come. -/
  | header (hd : BitVec 64) (payload : List (BitVec 32))
  /-- The second quadword, with the first DWord of the payload. -/
  | first (payload : List (BitVec 32))
  | body (payload : List (BitVec 32))
  | other (hd : BitVec 64) (rest : List (BitVec 64))
  | otherBody (rest : List (BitVec 64))
  deriving DecidableEq

/-- A quadword on the receive interface. -/
structure RxBeat where
  rd : BitVec 64
  rsofN : Bool
  reofN : Bool

namespace Sending

/-- The next quadword; half of the second and of the last quadword of a completion is something
else. -/
def beat (filler : BitVec 32) : Sending → Option RxBeat
  | .idle => none
  | .header hd _ => some ⟨hd, false, true⟩
  | .first payload => some ⟨filler ++ payload.headD 0, true, true⟩
  | .body (d :: e :: _) => some ⟨d ++ e, true, true⟩
  | .body payload => some ⟨payload.headD 0 ++ filler, true, false⟩
  | .other hd _ => some ⟨hd, false, true⟩
  | .otherBody rest => some ⟨rest.headD 0, true, !rest.tail.isEmpty⟩

/-- What is left when it was taken. -/
def rest : Sending → Sending
  | .idle => .idle
  | .header _ payload => .first payload
  | .first payload => .body payload.tail
  | .body (_ :: _ :: payload) => .body payload
  | .body _ => .idle
  | .other _ rest => .otherBody rest
  | .otherBody rest => if rest.tail = [] then .idle else .otherBody rest.tail

end Sending

/-! ### The receiver -/

/-- The receiver, the TLP before it, the payload of the completions so far and what was written to
the FIFO. -/
structure RxSide where
  rx : RxWrapper := {}
  sending : Sending := .idle
  sent : List (BitVec 32) := []
  written : List (BitVec 64) := []

/-- What surrounds the receiver in a clock: whether the endpoint has a quadword, whether the FIFO is
almost full, and the next TLP. -/
structure RxClock where
  gap : Bool
  h2fFifoFull : Bool
  trnRbarHitN : BitVec 7
  filler : BitVec 32
  tlp : Option HostTlp

/-- The two DWords of a word of the FIFO; the low half is the first. -/
def wordDws (w : BitVec 64) : List (BitVec 32) := [loDw w, hiDw w]

namespace RxSide

variable (s : RxSide) (c : RxClock)

/-- The TLP on the interface: the next one when there is none. -/
def current : Sending :=
  match s.sending, c.tlp with
  | .idle, some (.completion p) => .header p.header p.payload
  | .idle, some (.other o) => .other o.header o.rest
  | x, _ => x

/-- The payload that is new on the interface. -/
def loaded : List (BitVec 32) :=
  match s.sending, c.tlp with
  | .idle, some (.completion p) => p.payload
  | _, _ => []

/-- The next TLP comes to the interface. -/
def load : RxSide := { s with sending := s.current c, sent := s.sent ++ s.loaded c }

/-- The input signals. -/
def rxIn : RxIn :=
  match s.sending.beat c.filler with
  | some b =>
    { trnRd := b.rd, trnRsofN := b.rsofN, trnReofN := b.reofN, trnRsrcRdyN := c.gap
      trnRbarHitN := c.trnRbarHitN, h2fFifoFull := c.h2fFifoFull }
  | none =>
    { trnRd := 0, trnRsofN := true, trnReofN := true, trnRsrcRdyN := true
      trnRbarHitN := c.trnRbarHitN, h2fFifoFull := c.h2fFifoFull }

/-- A rising clock edge: a quadword is taken unless the endpoint has none or is held back. -/
def clock : RxSide :=
  { s with
    rx := s.rx.next (s.rxIn c)
    sending := if c.gap || s.rx.trnRdstRdyN then s.sending else s.sending.rest
    written := s.written ++ if s.rx.h2fFifoWen then [s.rx.h2fFifoData] else [] }

/-- A clock. -/
def next : RxSide := (s.load c).clock c

end RxSide

/-! ### What is between the interface and the FIFO -/

/-- The payload that the receiver did not take yet. -/
def Sending.coming : Sending → List (BitVec 32)
  | .header _ payload => payload
  | .first payload => payload
  | .body payload => payload
  | _ => []

/-- The DWords in the registers of the receiver. -/
def RxWrapper.held (s : RxWrapper) : List (BitVec 32) :=
  match s.pcieRxState with
  | .cpldQwn => [s.wrDataPre]
  | .cpldQwnw =>
    s.wrDataPre :: hiDw s.wrDataTmp :: if s.tlpEof then [] else [loDw s.wrDataTmp]
  | _ => []

/-- The DWords on their way to the FIFO. -/
def RxWrapper.pending (s : RxWrapper) : List (BitVec 32) :=
  if s.h2fFifoWen then wordDws s.h2fFifoData else []

/-- What is left of a TLP is well formed. -/
def Sending.Wf : Sending → Prop
  | .header hd payload => hd.extractLsb' 56 7 = pcieCpldFmtType ∧ payload.length % 2 = 0 ∧
      0 < payload.length ∧ dwords (hd.extractLsb' 32 10) = payload.length
  | .first payload => payload.length % 2 = 0 ∧ 0 < payload.length
  | .body payload => payload.length % 2 = 1
  | .other hd rest => hd.extractLsb' 56 7 ≠ pcieCpldFmtType ∧ rest ≠ []
  | .otherBody rest => rest ≠ []
  | .idle => True

/-- The receiver and the interface are at the same place of a TLP. -/
def RxWrapper.Meets (s : RxWrapper) (x : Sending) : Prop :=
  match s.pcieRxState with
  | .rst => (∀ p, x ≠ .first p) ∧ ∀ p, x ≠ .body p
  | .mrd32Qw1 | .mwr32Qw1 => ∃ rest, x = .otherBody rest
  | .cpldQw1 => ∃ p, x = .first p
  | .cpldQwn => ∃ p, x = .body p
  | .cpldQwnw =>
    if s.tlpEof then (∀ p, x ≠ .first p) ∧ (∀ p, x ≠ .body p) ∧ ∀ r, x ≠ .otherBody r
    else ∃ p, x = .body p

/-- What holds in every clock. -/
structure RxSide.Receiving (s : RxSide) : Prop where
  wf : s.sending.Wf
  meets : s.rx.Meets s.sending
  /-- The endpoint is held back while a quadword is set aside. -/
  ready : s.rx.trnRdstRdyN = decide (s.rx.pcieRxState = .cpldQwnw)
  /-- The FIFO is written for one clock. -/
  wen : s.rx.h2fFifoWen = true → s.rx.pcieRxState = .rst ∨ s.rx.pcieRxState = .cpldQwn
  /-- The end of a completion is shown for one clock. -/
  finish : s.rx.cpldRecvFinish = true → s.rx.pcieRxState = .rst
  /-- The DWords stay in order. -/
  order : s.written.flatMap wordDws ++ (s.rx.pending ++ s.rx.held ++ s.sending.coming) = s.sent

@[simp] theorem hiDw_append (a b : BitVec 32) : hiDw (a ++ b) = a :=
  BitVec.extractLsb'_append_eq_left

@[simp] theorem loDw_append (a b : BitVec 32) : loDw (a ++ b) = b :=
  BitVec.extractLsb'_append_eq_right

@[simp] theorem wordDws_append (a b : BitVec 32) : wordDws (a ++ b) = [b, a] := by
  rw [wordDws, hiDw_append, loDw_append]

namespace RxSide

variable {s : RxSide} {c : RxClock}

theorem load_of_none (h : c.tlp = none) : s.load c = s := by
  obtain ⟨rx, sending, sent, written⟩ := s
  cases sending <;> simp [load, current, loaded, h]

theorem load_of_busy (h : s.sending ≠ .idle) : s.load c = s := by
  obtain ⟨rx, sending, sent, written⟩ := s
  cases sending with
  | idle => exact absurd rfl h
  | _ => simp [load, current, loaded]

/-- A TLP comes to an empty interface. -/
theorem Receiving.load (h : s.Receiving) : (s.load c).Receiving := by
  have horder := h.order
  have hmeets := h.meets
  have hwf := h.wf
  have hrx : (s.load c).rx = s.rx := rfl
  -- only an empty interface changes
  by_cases hidle : s.sending = .idle
  · cases htlp : c.tlp with
    | none =>
      rw [load_of_none htlp]
      exact h
    | some tlp =>
      have hmeets' : s.rx.Meets (s.load c).sending := by
        rw [RxWrapper.Meets, hidle] at hmeets
        rw [RxSide.load, current, hidle, htlp, RxWrapper.Meets]
        cases hstate : s.rx.pcieRxState with
        | rst => cases tlp <;> simp
        | cpldQwnw =>
          rw [hstate] at hmeets
          cases heof : s.rx.tlpEof with
          | true => cases tlp <;> simp
          | false => simp [heof] at hmeets
        | _ => simp [hstate] at hmeets
      cases tlp with
      | completion p =>
        have hsending : (s.load c).sending = .header p.header p.payload := by
          rw [RxSide.load, current, hidle, htlp]
        have hsent : (s.load c).sent = s.sent ++ p.payload := by
          rw [RxSide.load, loaded, hidle, htlp]
        refine ⟨?_, hmeets', h.ready, h.wen, h.finish, ?_⟩
        · rw [hsending]
          exact ⟨p.fmtType, p.even, p.positive, p.len⟩
        · rw [hsent, hsending, ← horder, hidle]
          simp [Sending.coming, RxSide.load]
      | other o =>
        have hsending : (s.load c).sending = .other o.header o.rest := by
          rw [RxSide.load, current, hidle, htlp]
        have hsent : (s.load c).sent = s.sent := by
          rw [RxSide.load, loaded, hidle, htlp]
          exact List.append_nil _
        refine ⟨?_, hmeets', h.ready, h.wen, h.finish, ?_⟩
        · rw [hsending]
          exact ⟨o.fmtType, o.long⟩
        · rw [hsent, hsending, ← horder, hidle]
          rfl
  · rw [load_of_busy hidle]
    exact h

theorem written_clock :
    (s.clock c).written.flatMap wordDws = s.written.flatMap wordDws ++ s.rx.pending := by
  rw [clock, List.flatMap_append, RxWrapper.pending]
  cases s.rx.h2fFifoWen <;> simp

/-- What is taken from the interface or from the registers goes to the registers or to the FIFO. -/
theorem Receiving.order_clock (h : s.Receiving)
    (hflow : (s.clock c).rx.pending ++ (s.clock c).rx.held ++ (s.clock c).sending.coming =
      s.rx.held ++ s.sending.coming) :
    (s.clock c).written.flatMap wordDws ++
      ((s.clock c).rx.pending ++ (s.clock c).rx.held ++ (s.clock c).sending.coming) =
      (s.clock c).sent := by
  rw [hflow, written_clock, List.append_assoc, ← List.append_assoc s.rx.pending]
  exact h.order

/-- Nothing is on the interface, or the endpoint leaves a gap. -/
theorem rxIn_gap (hgap : c.gap = true ∨ s.sending = .idle) : (s.rxIn c).trnRsrcRdyN = true := by
  rw [rxIn]
  split
  · rcases hgap with h | h
    · exact h
    · simp_all [Sending.beat]
  · rfl

theorem sending_gap (hgap : c.gap = true ∨ s.sending = .idle) :
    (s.clock c).sending = s.sending := by
  rw [clock]
  rcases hgap with h | h
  · simp [h]
  · simp [h, Sending.rest]

/-- Outside of the set-aside state the quadword is taken. -/
theorem sending_taken (h : s.Receiving) (hgap : c.gap = false)
    (hstate : s.rx.pcieRxState ≠ .cpldQwnw) : (s.clock c).sending = s.sending.rest := by
  have hready := h.ready
  rw [decide_eq_false hstate] at hready
  rw [clock]
  simp [hgap, hready]

/-- The receiver waits for a header, and none comes. -/
theorem Receiving.clock_quiet (h : s.Receiving) (hstate : s.rx.pcieRxState = .rst)
    (hrx : (s.clock c).rx = { s.rx with
      csrRdStart := false, csrWrStart := false, cpldRecvFinish := false, h2fFifoWen := false })
    (hwf : (s.clock c).sending.Wf)
    (hmeets : (∀ p, (s.clock c).sending ≠ .first p) ∧ ∀ p, (s.clock c).sending ≠ .body p)
    (hcoming : (s.clock c).sending.coming = s.sending.coming) : (s.clock c).Receiving := by
  have hready := h.ready
  have hheld : s.rx.held = [] := by rw [RxWrapper.held, hstate]
  refine ⟨hwf, ?_, ?_, ?_, ?_, h.order_clock ?_⟩
  · rw [RxWrapper.Meets, hrx, hstate]
    exact hmeets
  · rw [hrx]
    exact hready
  · rw [hrx]
    intro h
    cases h
  · rw [hrx]
    intro h
    cases h
  · rw [hcoming, hheld, RxWrapper.pending, RxWrapper.held, hrx, hstate]
    rfl

/-- The header of a completion is taken. -/
theorem rx_header {hd : BitVec 64} {p : List (BitVec 32)} (hstate : s.rx.pcieRxState = .rst)
    (hs : s.sending = .header hd p) (hgap : c.gap = false)
    (hfmt : hd.extractLsb' 56 7 = pcieCpldFmtType) : (s.clock c).rx =
      { s.rx with
        csrRdStart := false, csrWrStart := false, cpldRecvFinish := false
        h2fFifoWen := false, cpldRecvLen := hd.extractLsb' 32 10
        pcieRxState := .cpldQw1 } := by
  show s.rx.next _ = _
  rw [RxWrapper.next, hstate]
  simp [RxWrapper.nextRst, rxIn, hs, Sending.beat, hgap, hfmt, pcieCpldFmtType, pcieMrd32FmtType,
    pcieMwr32FmtType]

/-- Another header is taken: a register access, or a TLP that is not supported. -/
theorem rx_other {hd : BitVec 64} {rest : List (BitVec 64)} (hstate : s.rx.pcieRxState = .rst)
    (hs : s.sending = .other hd rest) (hgap : c.gap = false)
    (hfmt : hd.extractLsb' 56 7 ≠ pcieCpldFmtType) :
    ∃ req state, (s.clock c).rx =
        { s.rx with
          csrRdStart := false, csrWrStart := false, cpldRecvFinish := false
          h2fFifoWen := false, mrd32Req := req, pcieRxState := state } ∧
      (state = .rst ∨ state = .mrd32Qw1 ∨ state = .mwr32Qw1) := by
  have hrx : (s.clock c).rx = s.rx.nextRst (s.rxIn c) := by
    show s.rx.next _ = _
    rw [RxWrapper.next, hstate]
  rw [hrx, RxWrapper.nextRst]
  simp only [rxIn, hs, Sending.beat, hgap, if_neg hfmt]
  rw [if_pos ⟨trivial, trivial⟩]
  split
  · split
    · exact ⟨_, _, rfl, .inr (.inl rfl)⟩
    · exact ⟨s.rx.mrd32Req, .rst, by rw [← hstate], .inl rfl⟩
  · split
    · split
      · exact ⟨s.rx.mrd32Req, _, rfl, .inr (.inr rfl)⟩
      · exact ⟨s.rx.mrd32Req, .rst, by rw [← hstate], .inl rfl⟩
    · exact ⟨s.rx.mrd32Req, .rst, by rw [← hstate], .inl rfl⟩

/-- The receiver waits for a header. -/
theorem Receiving.clock_rst (h : s.Receiving) (hstate : s.rx.pcieRxState = .rst) :
    (s.clock c).Receiving := by
  have hmeets := h.meets
  have hwf := h.wf
  have hready := h.ready
  rw [RxWrapper.Meets, hstate] at hmeets
  have hrx : (s.clock c).rx = s.rx.nextRst (s.rxIn c) := by
    show s.rx.next _ = _
    rw [RxWrapper.next, hstate]
  by_cases hgap : c.gap = true ∨ s.sending = .idle
  · have hsrc := rxIn_gap hgap
    have hsame := sending_gap hgap
    refine h.clock_quiet hstate ?_ (hsame ▸ hwf) (hsame ▸ hmeets) (by rw [hsame])
    rw [hrx, RxWrapper.nextRst]
    simp [hsrc]
  · obtain ⟨hgap, hidle⟩ := not_or.mp hgap
    replace hgap : c.gap = false := by simpa using hgap
    have hnext := sending_taken h hgap (by rw [hstate]; decide)
    cases hs : s.sending with
    | idle => exact absurd hs hidle
    | first p => exact absurd hs (hmeets.1 p)
    | body p => exact absurd hs (hmeets.2 p)
    | header hd p =>
      rw [hs] at hnext hwf
      have hrx' := rx_header hstate hs hgap hwf.1
      refine ⟨?_, ?_, ?_, ?_, ?_, h.order_clock ?_⟩
      · rw [hnext]
        exact ⟨hwf.2.1, hwf.2.2.1⟩
      · rw [RxWrapper.Meets, hrx', hnext]
        exact ⟨p, rfl⟩
      · rw [hrx']
        simpa [hstate] using hready
      · rw [hrx']
        intro h
        cases h
      · rw [hrx']
        intro h
        cases h
      · rw [hnext, hs, RxWrapper.pending, RxWrapper.held, RxWrapper.held, hrx', hstate]
        rfl
    | other hd rest =>
      rw [hs] at hnext hwf
      obtain ⟨req, state, hrx', hst⟩ := rx_other hstate hs hgap hwf.1
      refine ⟨?_, ?_, ?_, ?_, ?_, h.order_clock ?_⟩
      · rw [hnext]
        exact hwf.2
      · rw [RxWrapper.Meets, hrx', hnext]
        rcases hst with rfl | rfl | rfl <;> simp [Sending.rest]
      · rw [hrx']
        rcases hst with rfl | rfl | rfl <;> simpa [hstate] using hready
      · rw [hrx']
        intro h
        cases h
      · rw [hrx']
        intro h
        cases h
      · rw [hnext, hs, RxWrapper.pending, RxWrapper.held, RxWrapper.held, hrx', hstate]
        rcases hst with rfl | rfl | rfl <;> rfl
    | otherBody rest =>
      rw [hs] at hnext hwf
      have hrest : (s.clock c).sending = .idle ∨
          (s.clock c).sending = .otherBody rest.tail ∧ rest.tail ≠ [] := by
        rw [hnext, Sending.rest]
        by_cases htail : rest.tail = []
        · exact .inl (if_pos htail)
        · exact .inr ⟨if_neg htail, htail⟩
      refine h.clock_quiet hstate ?_ ?_ ?_ ?_
      · rw [hrx, RxWrapper.nextRst]
        simp [rxIn, hs, Sending.beat]
      · rcases hrest with hr | ⟨hr, htail⟩ <;> rw [hr]
        · trivial
        · exact htail
      · rcases hrest with hr | ⟨hr, -⟩ <;> rw [hr] <;> simp
      · rcases hrest with hr | ⟨hr, -⟩ <;> rw [hr, hs] <;> rfl

/-- The registers that do not matter for the payload change, or nothing does. -/
theorem Receiving.clock_access (h : s.Receiving)
    (hstate : s.rx.pcieRxState = .mrd32Qw1 ∨ s.rx.pcieRxState = .mwr32Qw1) :
    (s.clock c).Receiving := by
  have hwf := h.wf
  have hready := h.ready
  obtain ⟨rest, hs⟩ : ∃ rest, s.sending = .otherBody rest := by
    have hmeets := h.meets
    rw [RxWrapper.Meets] at hmeets
    rcases hstate with hst | hst <;> rw [hst] at hmeets <;> exact hmeets
  have hwen : s.rx.h2fFifoWen = false := by
    by_contra hwen
    rcases h.wen (by simpa using hwen) with h' | h' <;> rcases hstate with hst | hst <;>
      rw [hst] at h' <;> cases h'
  have hfinish : s.rx.cpldRecvFinish = false := by
    by_contra hfinish
    have h' := h.finish (by simpa using hfinish)
    rcases hstate with hst | hst <;> rw [hst] at h' <;> cases h'
  have hheld : s.rx.held = [] := by
    rw [RxWrapper.held]
    rcases hstate with hst | hst <;> rw [hst]
  have hcoming : s.sending.coming = [] := by rw [hs]; rfl
  -- the access goes on, or it ends with the TLP
  have hrx : ((s.clock c).rx = s.rx ∧ ∃ r, r ≠ [] ∧ (s.clock c).sending = .otherBody r) ∨
      ((s.clock c).rx.pcieRxState = .rst ∧ (s.clock c).rx.trnRdstRdyN = s.rx.trnRdstRdyN ∧
        (s.clock c).rx.h2fFifoWen = false ∧ (s.clock c).rx.cpldRecvFinish = false ∧
        (s.clock c).sending = .idle) := by
    by_cases hgap : c.gap = true
    · left
      have hsrc := rxIn_gap (s := s) (.inl hgap)
      refine ⟨?_, rest, ?_, ?_⟩
      · show s.rx.next _ = _
        rw [RxWrapper.next]
        rcases hstate with hst | hst <;> simp [hst, hsrc]
      · rw [hs] at hwf
        exact hwf
      · rw [sending_gap (.inl hgap), hs]
    · replace hgap : c.gap = false := by simpa using hgap
      have hnext := sending_taken h hgap (by rcases hstate with hst | hst <;> rw [hst] <;> decide)
      rw [hs, Sending.rest] at hnext
      by_cases htail : rest.tail = []
      · right
        rw [if_pos htail] at hnext
        have hin : s.rxIn c = ⟨rest.headD 0, true, false, false, c.trnRbarHitN, c.h2fFifoFull⟩ := by
          simp [rxIn, hs, Sending.beat, hgap, htail]
        have hclock : (s.clock c).rx = s.rx.next (s.rxIn c) := rfl
        rw [hclock, RxWrapper.next, hin]
        rcases hstate with hst | hst <;> simp [hst, hwen, hfinish, hnext]
      · left
        rw [if_neg htail] at hnext
        have hin : s.rxIn c = ⟨rest.headD 0, true, true, false, c.trnRbarHitN, c.h2fFifoFull⟩ := by
          simp [rxIn, hs, Sending.beat, hgap, htail]
        refine ⟨?_, rest.tail, htail, hnext⟩
        show s.rx.next _ = _
        rw [RxWrapper.next, hin]
        rcases hstate with hst | hst <;> simp [hst]
  rcases hrx with ⟨hsame, r, hr, hnext⟩ | ⟨hrst, hrdst, hwen', hfinish', hnext⟩
  · refine ⟨?_, ?_, ?_, ?_, ?_, h.order_clock ?_⟩
    · rw [hnext]
      exact hr
    · rw [RxWrapper.Meets, hsame, hnext]
      rcases hstate with hst | hst <;> rw [hst] <;> exact ⟨r, rfl⟩
    · rw [hsame]
      exact hready
    · rw [hsame]
      exact h.wen
    · rw [hsame]
      exact h.finish
    · rw [hnext, hs, hsame, RxWrapper.pending, hwen]
      rfl
  · refine ⟨?_, ?_, ?_, ?_, ?_, h.order_clock ?_⟩
    · rw [hnext]
      trivial
    · rw [RxWrapper.Meets, hrst, hnext]
      simp
    · rw [hrst, hrdst, hready]
      rcases hstate with hst | hst <;> rw [hst] <;> rfl
    · exact fun _ => .inl hrst
    · exact fun _ => hrst
    · rw [hheld, hcoming, hnext, RxWrapper.pending, hwen', RxWrapper.held, hrst]
      rfl

/-- The second quadword of a completion. -/
theorem Receiving.clock_first (h : s.Receiving) (hstate : s.rx.pcieRxState = .cpldQw1) :
    (s.clock c).Receiving := by
  have hwf := h.wf
  have hready := h.ready
  have hmeets := h.meets
  rw [RxWrapper.Meets, hstate] at hmeets
  obtain ⟨p, hs⟩ := hmeets
  rw [hs] at hwf
  have hrx : (s.clock c).rx = s.rx.next (s.rxIn c) := rfl
  have hheld : s.rx.held = [] := by rw [RxWrapper.held, hstate]
  have hwen : s.rx.h2fFifoWen = false := by
    by_contra hwen
    rcases h.wen (by simpa using hwen) with h' | h' <;> rw [hstate] at h' <;> cases h'
  cases hgap : c.gap with
  | true =>
    have hsrc := rxIn_gap (s := s) (.inl hgap)
    have hnext := sending_gap (s := s) (.inl hgap)
    have hsame : (s.clock c).rx = s.rx := by
      rw [hrx, RxWrapper.next, hstate]
      simp [hsrc]
    refine ⟨?_, ?_, ?_, ?_, ?_, h.order_clock ?_⟩
    · rw [hnext, hs]
      exact hwf
    · rw [RxWrapper.Meets, hsame, hnext, hstate]
      exact ⟨p, hs⟩
    · rw [hsame]
      exact hready
    · rw [hsame]
      exact h.wen
    · rw [hsame]
      exact h.finish
    · rw [hnext, hsame, RxWrapper.pending, hwen]
      rfl
  | false =>
    have hnext := sending_taken h hgap (by rw [hstate]; decide)
    rw [hs, Sending.rest] at hnext
    obtain ⟨d, ds, rfl⟩ := List.exists_cons_of_length_pos hwf.2
    have hodd : ds.length % 2 = 1 := by
      have heven := hwf.1
      rw [List.length_cons] at heven
      omega
    have hrx' : (s.clock c).rx =
        { s.rx with
          wrDataPre1 := d, wrDataSel := false, h2fFifoWen := false, trnRdstRdyN := false
          pcieRxState := .cpldQwn } := by
      rw [hrx, RxWrapper.next, hstate]
      simp [rxIn, hs, Sending.beat, hgap]
    have hfinish : s.rx.cpldRecvFinish = false := by
      by_contra hfinish
      have h' := h.finish (by simpa using hfinish)
      rw [hstate] at h'
      cases h'
    refine ⟨?_, ?_, ?_, ?_, ?_, h.order_clock ?_⟩
    · rw [hnext]
      exact hodd
    · rw [RxWrapper.Meets, hrx', hnext]
      exact ⟨ds, rfl⟩
    · rw [hrx']
      rfl
    · rw [hrx']
      intro h
      cases h
    · rw [hrx']
      exact fun h => absurd (hfinish.symm.trans h) (by decide)
    · rw [hheld, hs, hnext, RxWrapper.pending, RxWrapper.held, RxWrapper.wrDataPre, hrx']
      rfl

/-- The last DWord of a completion finds its partner. -/
theorem Receiving.clock_end (h : s.Receiving) {w : BitVec 64}
    (hrx : (s.clock c).rx =
      { s.rx.writePair w with cpldRecvFinish := true, pcieRxState := .rst })
    (hwf : (s.clock c).sending.Wf)
    (hmeets : (∀ p, (s.clock c).sending ≠ .first p) ∧ ∀ p, (s.clock c).sending ≠ .body p)
    (hflow : s.rx.held ++ s.sending.coming =
      [s.rx.wrDataPre, hiDw w] ++ (s.clock c).sending.coming) : (s.clock c).Receiving := by
  refine ⟨hwf, ?_, ?_, ?_, ?_, h.order_clock ?_⟩
  · rw [RxWrapper.Meets, hrx]
    exact hmeets
  · rw [hrx]
    rfl
  · rw [hrx]
    exact fun _ => .inl rfl
  · rw [hrx]
    exact fun _ => rfl
  · rw [hflow, RxWrapper.pending, RxWrapper.held, hrx]
    simp [RxWrapper.writePair]

/-- A DWord finds its partner, and the next one waits. -/
theorem Receiving.clock_pair (h : s.Receiving) {w : BitVec 64} {p : List (BitVec 32)}
    (hfinish : s.rx.cpldRecvFinish = false)
    (hrx : (s.clock c).rx =
      { (s.rx.writePair w).keepSecond w with pcieRxState := .cpldQwn })
    (hnext : (s.clock c).sending = .body p) (hodd : p.length % 2 = 1)
    (hflow : s.rx.held ++ s.sending.coming = [s.rx.wrDataPre, hiDw w, loDw w] ++ p) :
    (s.clock c).Receiving := by
  obtain ⟨pre1, pre2, sel, heq⟩ := (s.rx.writePair w).keepSecond_eq w
  have hpre := (s.rx.writePair w).keepSecond_wrDataPre w
  rw [heq] at hrx hpre
  refine ⟨?_, ?_, ?_, ?_, ?_, h.order_clock ?_⟩
  · rw [hnext]
    exact hodd
  · rw [RxWrapper.Meets, hrx, hnext]
    exact ⟨p, rfl⟩
  · rw [hrx]
    rfl
  · rw [hrx]
    exact fun _ => .inr rfl
  · rw [hrx]
    exact fun h => absurd (hfinish.symm.trans h) (by decide)
  · have hheld : (s.clock c).rx.held = [loDw w] := by
      rw [RxWrapper.held, hrx, ← hpre]
      rfl
    rw [hflow, hheld, RxWrapper.pending, hrx, hnext]
    simp [RxWrapper.writePair, Sending.coming]

/-- A quadword behind the first DWord. -/
theorem Receiving.clock_body (h : s.Receiving) (hstate : s.rx.pcieRxState = .cpldQwn) :
    (s.clock c).Receiving := by
  have hwf := h.wf
  have hready := h.ready
  have hmeets := h.meets
  rw [RxWrapper.Meets, hstate] at hmeets
  obtain ⟨p, hs⟩ := hmeets
  rw [hs] at hwf
  have hrx : (s.clock c).rx = s.rx.nextCpldQwn (s.rxIn c) := by
    show s.rx.next _ = _
    rw [RxWrapper.next, hstate]
  have hheld : s.rx.held = [s.rx.wrDataPre] := by rw [RxWrapper.held, hstate]
  have hfinish : s.rx.cpldRecvFinish = false := by
    by_contra hfinish
    have h' := h.finish (by simpa using hfinish)
    rw [hstate] at h'
    cases h'
  cases hgap : c.gap with
  | true =>
    have hsrc := rxIn_gap (s := s) (.inl hgap)
    have hnext := sending_gap (s := s) (.inl hgap)
    have hrx' : (s.clock c).rx = { s.rx with h2fFifoWen := false, trnRdstRdyN := false } := by
      rw [hrx, RxWrapper.nextCpldQwn]
      simp [hsrc]
    refine ⟨?_, ?_, ?_, ?_, ?_, h.order_clock ?_⟩
    · rw [hnext, hs]
      exact hwf
    · rw [RxWrapper.Meets, hrx', hnext, hstate]
      exact ⟨p, hs⟩
    · rw [hrx', hstate]
      rfl
    · rw [hrx']
      intro h
      cases h
    · rw [hrx']
      exact h.finish
    · rw [hnext, hheld, RxWrapper.pending, RxWrapper.held, hrx', hstate]
      rfl
  | false =>
    have hnext := sending_taken h hgap (by rw [hstate]; decide)
    rw [hs] at hnext
    -- the last DWord is alone in its quadword
    cases p with
    | nil => cases hwf
    | cons d ds =>
      cases ds with
      | nil =>
        have hin : s.rxIn c = ⟨d ++ c.filler, true, false, false, c.trnRbarHitN, c.h2fFifoFull⟩ := by
          simp [rxIn, hs, Sending.beat, hgap]
        cases hfull : c.h2fFifoFull with
        | false =>
          refine h.clock_end (w := d ++ c.filler) ?_ ?_ ?_ ?_
          · rw [hrx, RxWrapper.nextCpldQwn, hin]
            simp [hfull]
          · rw [hnext]
            trivial
          · rw [hnext]
            simp [Sending.rest]
          · rw [hheld, hs, hnext, hiDw_append]
            rfl
        | true =>
          have hrx' : (s.clock c).rx =
              { s.rx with
                tlpEof := true, wrDataTmp := d ++ c.filler, trnRdstRdyN := true
                h2fFifoWen := false, pcieRxState := .cpldQwnw } := by
            rw [hrx, RxWrapper.nextCpldQwn, hin]
            simp [hfull]
          refine ⟨?_, ?_, ?_, ?_, ?_, h.order_clock ?_⟩
          · rw [hnext]
            trivial
          · rw [RxWrapper.Meets, hrx', hnext]
            simp [Sending.rest]
          · rw [hrx']
            rfl
          · rw [hrx']
            intro h
            cases h
          · rw [hrx']
            exact fun h => absurd (hfinish.symm.trans h) (by decide)
          · rw [hheld, hs, hnext, RxWrapper.pending, RxWrapper.held, hrx']
            simp [Sending.rest, Sending.coming, RxWrapper.wrDataPre]
      | cons e ds =>
        have hodd : ds.length % 2 = 1 := by
          have hlen : (d :: e :: ds).length % 2 = 1 := hwf
          simp only [List.length_cons] at hlen
          omega
        have hin : s.rxIn c = ⟨d ++ e, true, true, false, c.trnRbarHitN, c.h2fFifoFull⟩ := by
          simp [rxIn, hs, Sending.beat, hgap]
        cases hfull : c.h2fFifoFull with
        | false =>
          refine h.clock_pair (w := d ++ e) (p := ds) hfinish ?_ hnext hodd ?_
          · obtain ⟨pre1, pre2, sel, heq⟩ := (s.rx.writePair (d ++ e)).keepSecond_eq (d ++ e)
            rw [hrx, RxWrapper.nextCpldQwn, hin, heq]
            simp [hfull, RxWrapper.writePair, hstate]
          · rw [hheld, hs, hiDw_append, loDw_append]
            rfl
        | true =>
          have hrx' : (s.clock c).rx =
              { s.rx with
                tlpEof := false, wrDataTmp := d ++ e, trnRdstRdyN := true
                h2fFifoWen := false, pcieRxState := .cpldQwnw } := by
            rw [hrx, RxWrapper.nextCpldQwn, hin]
            simp [hfull]
          refine ⟨?_, ?_, ?_, ?_, ?_, h.order_clock ?_⟩
          · rw [hnext]
            exact hodd
          · rw [RxWrapper.Meets, hrx', hnext]
            exact ⟨ds, rfl⟩
          · rw [hrx']
            rfl
          · rw [hrx']
            intro h
            cases h
          · rw [hrx']
            exact fun h => absurd (hfinish.symm.trans h) (by decide)
          · rw [hheld, hs, hnext, RxWrapper.pending, RxWrapper.held, hrx']
            simp [Sending.rest, Sending.coming, RxWrapper.wrDataPre]

/-- A quadword is set aside. -/
theorem Receiving.clock_aside (h : s.Receiving) (hstate : s.rx.pcieRxState = .cpldQwnw) :
    (s.clock c).Receiving := by
  have hwf := h.wf
  have hready := h.ready
  have hmeets := h.meets
  rw [hstate] at hready
  rw [RxWrapper.Meets, hstate] at hmeets
  have hrx : (s.clock c).rx = s.rx.nextCpldQwnw (s.rxIn c) := by
    show s.rx.next _ = _
    rw [RxWrapper.next, hstate]
  have hfull' : (s.rxIn c).h2fFifoFull = c.h2fFifoFull := by
    rw [rxIn]
    split <;> rfl
  have hnext : (s.clock c).sending = s.sending := by
    rw [clock]
    simp [hready]
  have hfinish : s.rx.cpldRecvFinish = false := by
    by_contra hfinish
    have h' := h.finish (by simpa using hfinish)
    rw [hstate] at h'
    cases h'
  cases hfull : c.h2fFifoFull with
  | true =>
    have hrx' : (s.clock c).rx = { s.rx with trnRdstRdyN := true, h2fFifoWen := false } := by
      rw [hrx, RxWrapper.nextCpldQwnw]
      simp [hfull', hfull]
    refine ⟨hnext ▸ hwf, ?_, ?_, ?_, ?_, h.order_clock ?_⟩
    · rw [RxWrapper.Meets, hrx', hnext, hstate]
      exact hmeets
    · rw [hrx', hstate]
      rfl
    · rw [hrx']
      intro h
      cases h
    · rw [hrx']
      exact h.finish
    · rw [hnext, RxWrapper.pending, RxWrapper.held, RxWrapper.held, hrx', hstate]
      rfl
  | false =>
    cases heof : s.rx.tlpEof with
    | true =>
      rw [heof] at hmeets
      have hmeets' : (∀ p, s.sending ≠ .first p) ∧ (∀ p, s.sending ≠ .body p) ∧
          ∀ r, s.sending ≠ .otherBody r := hmeets
      refine h.clock_end (w := s.rx.wrDataTmp) ?_ (hnext ▸ hwf)
        (hnext ▸ ⟨hmeets'.1, hmeets'.2.1⟩) ?_
      · rw [hrx, RxWrapper.nextCpldQwnw]
        simp [hfull', hfull, heof]
      · rw [hnext, RxWrapper.held, hstate, heof]
        rfl
    | false =>
      rw [heof] at hmeets
      obtain ⟨p, hs⟩ : ∃ p, s.sending = .body p := by simpa using hmeets
      rw [hs] at hwf
      refine h.clock_pair (w := s.rx.wrDataTmp) hfinish ?_ (hnext.trans hs) hwf ?_
      · rw [hrx, RxWrapper.nextCpldQwnw]
        simp [hfull', hfull, heof]
      · rw [hs, RxWrapper.held, hstate, heof]
        rfl

theorem Receiving.clock (h : s.Receiving) : (s.clock c).Receiving := by
  cases hstate : s.rx.pcieRxState with
  | rst => exact h.clock_rst hstate
  | mrd32Qw1 => exact h.clock_access (.inl hstate)
  | mwr32Qw1 => exact h.clock_access (.inr hstate)
  | cpldQw1 => exact h.clock_first hstate
  | cpldQwn => exact h.clock_body hstate
  | cpldQwnw => exact h.clock_aside hstate

/-- **Payload.** A clock keeps the DWords in order. -/
theorem Receiving.next (h : s.Receiving) : (s.next c).Receiving := h.load.clock

theorem receiving_start : Receiving {} := by
  refine ⟨trivial, ⟨?_, ?_⟩, rfl, ?_, ?_, rfl⟩
  · rintro _ ⟨⟩
  · rintro _ ⟨⟩
  · rintro ⟨⟩
  · rintro ⟨⟩

/-- The last word of a completion is written in the clock that shows its end. -/
def EndWritten (s : RxSide) : Prop :=
  s.rx.pcieRxState = .rst → s.rx.h2fFifoWen = s.rx.cpldRecvFinish

theorem Receiving.endWritten_next (h : s.Receiving) : (s.next c).EndWritten := by
  have hload := h.load (c := c)
  have hwen := hload.wen
  have hfinish := hload.finish
  have hrx : (s.next c).rx = (s.load c).rx.next ((s.load c).rxIn c) := rfl
  rw [EndWritten, hrx, RxWrapper.next]
  cases hstate : (s.load c).rx.pcieRxState with
  | rst => grind [RxWrapper.nextRst]
  | cpldQwn => grind [RxWrapper.nextCpldQwn, RxWrapper.writePair, RxWrapper.keepSecond]
  | cpldQwnw => grind [RxWrapper.nextCpldQwnw, RxWrapper.writePair, RxWrapper.keepSecond]
  | _ => grind

end RxSide

/-! ### Counting -/

/-- The length code of a completion that is on the interface with its header to come. -/
def Sending.wholeLen : Sending → List (BitVec 10)
  | .header hd _ => [hd.extractLsb' 32 10]
  | _ => []

/-- The DWords of a completion that is on the interface with its header to come. -/
def Sending.whole : Sending → ℕ
  | .header _ payload => payload.length
  | _ => 0

@[simp] theorem Sending.wholeLen_rest (x : Sending) : x.rest.wholeLen = [] := by
  rw [Sending.rest.eq_def]
  split
  case h_7 => split <;> rfl
  all_goals rfl

theorem Sending.Wf.whole_eq {x : Sending} (h : x.Wf) : x.whole = (x.wholeLen.map dwords).sum := by
  cases x with
  | header hd p =>
    rw [whole, wholeLen, List.map_singleton, List.sum_singleton]
    exact h.2.2.2.symm
  | _ => rfl

/-- The length codes of the completion whose end the receiver shows and of the one it is in. -/
def RxWrapper.openedLen (s : RxWrapper) : List (BitVec 10) :=
  (if s.cpldRecvFinish then [s.cpldRecvLen] else []) ++
    match s.pcieRxState with
    | .cpldQw1 | .cpldQwn | .cpldQwnw => [s.cpldRecvLen]
    | _ => []

/-- The DWords of the completion that the receiver is in, or whose end it shows. -/
def RxWrapper.opened (s : RxWrapper) : ℕ :=
  (if s.cpldRecvFinish then dwords s.cpldRecvLen else 0) +
    match s.pcieRxState with
    | .cpldQw1 | .cpldQwn | .cpldQwnw => dwords s.cpldRecvLen
    | _ => 0

theorem RxWrapper.opened_eq (s : RxWrapper) : s.opened = (s.openedLen.map dwords).sum := by
  rw [opened, openedLen, List.map_append, List.sum_append]
  congr 1
  · split <;> simp
  · split <;> simp

namespace RxSide

variable {s : RxSide} {c : RxClock}

/-- The length codes of the completions that came to the interface and whose end was not shown
before. -/
def announced (s : RxSide) : List (BitVec 10) := s.rx.openedLen ++ s.sending.wholeLen

/-- The completion that is new on the interface. -/
def arriving (s : RxSide) (c : RxClock) : List Completion :=
  match s.sending, c.tlp with
  | .idle, some (.completion p) => [p]
  | _, _ => []

/-- Its length code. -/
def loadedLen (s : RxSide) (c : RxClock) : List (BitVec 10) :=
  (s.arriving c).map fun p => p.header.extractLsb' 32 10

/-- The DWords of the completions that came to the interface and whose end was not shown before. -/
def uncounted (s : RxSide) : ℕ := s.rx.opened + s.sending.whole

theorem Receiving.uncounted_eq (h : s.Receiving) : s.uncounted = (s.announced.map dwords).sum := by
  rw [uncounted, announced, List.map_append, List.sum_append, ← RxWrapper.opened_eq, h.wf.whole_eq]

theorem loaded_eq : s.loaded c = (s.arriving c).flatMap Completion.payload := by
  rw [loaded, arriving]
  cases hs : s.sending with
  | idle =>
    cases c.tlp with
    | none => rfl
    | some tlp => cases tlp <;> simp
  | _ => rfl

theorem loaded_length : (s.loaded c).length = ((s.loadedLen c).map dwords).sum := by
  rw [loaded_eq, loadedLen, List.length_flatMap, List.map_map]
  congr 2
  funext p
  exact p.len.symm

theorem announced_load : (s.load c).announced = s.announced ++ s.loadedLen c := by
  by_cases hidle : s.sending = .idle
  · cases htlp : c.tlp with
    | none =>
      rw [load_of_none htlp, loadedLen, arriving, hidle, htlp]
      exact (List.append_nil _).symm
    | some tlp =>
      rw [announced, announced, load, current, loadedLen, arriving, hidle, htlp]
      cases tlp <;> simp [Sending.wholeLen]
  · rw [load_of_busy hidle]
    have hloaded : s.loadedLen c = [] := by
      rw [loadedLen, arriving]
      cases hs : s.sending with
      | idle => exact absurd hs hidle
      | _ => rfl
    rw [hloaded, List.append_nil]

/-- Outside of a completion nothing is opened but by a header. -/
theorem Receiving.announced_rst (h : s.Receiving) (hstate : s.rx.pcieRxState = .rst) :
    (s.clock c).announced = s.sending.wholeLen := by
  have hmeets := h.meets
  have hwf := h.wf
  have hrx : (s.clock c).rx = s.rx.nextRst (s.rxIn c) := by
    show s.rx.next _ = _
    rw [RxWrapper.next, hstate]
  rw [RxWrapper.Meets, hstate] at hmeets
  have hquiet : (s.clock c).rx = { s.rx with
      csrRdStart := false, csrWrStart := false, cpldRecvFinish := false, h2fFifoWen := false } →
      (s.clock c).rx.openedLen = [] := by
    intro hrx'
    rw [RxWrapper.openedLen, hrx', hstate]
    rfl
  rw [announced]
  by_cases hgap : c.gap = true ∨ s.sending = .idle
  · have hsrc := rxIn_gap hgap
    rw [sending_gap hgap, hquiet, List.nil_append]
    rw [hrx, RxWrapper.nextRst]
    simp [hsrc]
  · obtain ⟨hgap, hidle⟩ := not_or.mp hgap
    replace hgap : c.gap = false := by simpa using hgap
    have hnext := sending_taken h hgap (by rw [hstate]; decide)
    rw [hnext, Sending.wholeLen_rest, List.append_nil]
    cases hs : s.sending with
    | idle => exact absurd hs hidle
    | first p => exact absurd hs (hmeets.1 p)
    | body p => exact absurd hs (hmeets.2 p)
    | header hd p =>
      rw [hs] at hwf
      rw [RxWrapper.openedLen, rx_header hstate hs hgap hwf.1]
      rfl
    | other hd rest =>
      rw [hs] at hwf
      obtain ⟨req, state, hrx', hst⟩ := rx_other hstate hs hgap hwf.1
      rw [RxWrapper.openedLen, hrx']
      rcases hst with rfl | rfl | rfl <;> rfl
    | otherBody rest =>
      rw [hquiet]
      · rfl
      · rw [hrx, RxWrapper.nextRst]
        simp [rxIn, hs, Sending.beat]

theorem Receiving.finish_eq (h : s.Receiving) (hstate : s.rx.pcieRxState ≠ .rst) :
    s.rx.cpldRecvFinish = false := by
  by_contra hfinish
  exact hstate (h.finish (by simpa using hfinish))

/-- What is on the interface outside of the waiting state is no header to come, or stays. -/
theorem Receiving.wholeLen_clock (h : s.Receiving) (hstate : s.rx.pcieRxState ≠ .rst) :
    (s.clock c).sending.wholeLen = s.sending.wholeLen := by
  have hmeets := h.meets
  have hready := h.ready
  have hclock : (s.clock c).sending =
      if c.gap || s.rx.trnRdstRdyN then s.sending else s.sending.rest := rfl
  rw [hclock]
  split
  · rfl
  · rename_i htaken
    rw [Sending.wholeLen_rest]
    rw [RxWrapper.Meets] at hmeets
    cases hst : s.rx.pcieRxState with
    | rst => exact absurd hst hstate
    | cpldQwnw => simp [hready, hst] at htaken
    | _ =>
      rw [hst] at hmeets
      obtain ⟨x, hs⟩ := hmeets
      rw [hs]
      rfl

/-- The end that is shown in a clock. -/
def shownLen (s : RxSide) : List (BitVec 10) :=
  if s.rx.cpldRecvFinish then [s.rx.cpldRecvLen] else []

theorem shownLen_sum : (s.shownLen.map dwords).sum =
    if s.rx.cpldRecvFinish then dwords s.rx.cpldRecvLen else 0 := by
  rw [shownLen]
  split <;> simp

/-- The end of each completion is shown once, with its length. -/
theorem Receiving.announced_clock (h : s.Receiving) :
    s.shownLen ++ (s.clock c).announced = s.announced := by
  by_cases hstate : s.rx.pcieRxState = .rst
  · rw [h.announced_rst hstate, announced, RxWrapper.openedLen, hstate, List.append_nil]
    rfl
  · have hrx : (s.clock c).rx = s.rx.next (s.rxIn c) := rfl
    have hfinish := h.finish_eq hstate
    rw [announced, announced, h.wholeLen_clock hstate, RxWrapper.openedLen, RxWrapper.openedLen, hrx,
      shownLen, hfinish, if_neg Bool.false_ne_true, List.nil_append, List.nil_append]
    by_cases haccess : s.rx.pcieRxState = .mrd32Qw1 ∨ s.rx.pcieRxState = .mwr32Qw1
    · rw [RxWrapper.next]
      rcases haccess with h' | h' <;> rw [h'] <;> simp only <;> split <;> simp [hfinish, h']
    · -- a completion goes on, or its end is shown
      have hcpld : s.rx.pcieRxState = .cpldQw1 ∨ s.rx.pcieRxState = .cpldQwn ∨
          s.rx.pcieRxState = .cpldQwnw := by
        cases hst : s.rx.pcieRxState <;> simp_all
      have hopen : (match s.rx.pcieRxState with
          | .cpldQw1 | .cpldQwn | .cpldQwnw => [s.rx.cpldRecvLen]
          | _ => []) = [s.rx.cpldRecvLen] := by
        rcases hcpld with h' | h' | h' <;> rw [h']
      obtain ⟨hlen, hgoes⟩ := RxWrapper.goesOn_next (i := s.rxIn c) hcpld
      rw [hopen, hlen]
      rcases hgoes with ⟨hrst, hend⟩ | ⟨h' | h' | h', hend⟩
      · rw [hrst, hend]
        simp
      all_goals
        rw [h', hend, hfinish]
        simp

theorem Receiving.announced_next (h : s.Receiving) :
    s.shownLen ++ (s.next c).announced = s.announced ++ s.loadedLen c := by
  rw [← announced_load]
  exact h.load.announced_clock

/-- The DWords of a completion are counted when its end is shown. -/
theorem Receiving.uncounted_next (h : s.Receiving) :
    (s.next c).uncounted + (if s.rx.cpldRecvFinish then dwords s.rx.cpldRecvLen else 0) =
      s.uncounted + (s.loaded c).length := by
  have hsum := congrArg (fun l => (l.map dwords).sum) (h.announced_next (c := c))
  simp only [List.map_append, List.sum_append] at hsum
  rw [h.next.uncounted_eq, h.uncounted_eq, loaded_length, ← shownLen_sum, Nat.add_comm]
  exact hsum

/-- Outside of a completion only a header opens one. -/
theorem Receiving.uncounted_rst (h : s.Receiving) (hstate : s.rx.pcieRxState = .rst) :
    (s.clock c).uncounted = s.sending.whole := by
  rw [h.clock.uncounted_eq, h.announced_rst hstate, h.wf.whole_eq]

/-- Nothing is to be counted when everything was written, and the other way round. -/
theorem Receiving.uncounted_eq_zero (h : s.Receiving) (hend : s.EndWritten) :
    s.uncounted = 0 ↔ s.rx.pending ++ s.rx.held ++ s.sending.coming = [] := by
  have hmeets := h.meets
  have hwf := h.wf
  have hpos := dwords_pos s.rx.cpldRecvLen
  have hwen := h.wen
  have hpending : s.rx.pending = [] ↔ s.rx.h2fFifoWen = false := by
    rw [RxWrapper.pending]
    cases s.rx.h2fFifoWen <;> simp [wordDws]
  rw [List.append_eq_nil_iff, List.append_eq_nil_iff, hpending, uncounted, RxWrapper.opened,
    RxWrapper.held]
  rw [EndWritten] at hend
  rw [RxWrapper.Meets] at hmeets
  cases hstate : s.rx.pcieRxState with
  | rst =>
    rw [hstate] at hmeets
    rw [hend hstate]
    cases hs : s.sending with
    | first p => exact absurd hs (hmeets.1 p)
    | body p => exact absurd hs (hmeets.2 p)
    | header hd p =>
      rw [hs] at hwf
      have hne : p ≠ [] := List.length_pos_iff.mp hwf.2.2.1
      simp [Sending.whole, Sending.coming, hne]
    | _ => simp [Sending.whole, Sending.coming, hpos.ne']
  | cpldQw1 =>
    rw [hstate] at hmeets
    obtain ⟨p, hs⟩ := hmeets
    rw [hs] at hwf
    have hne : p ≠ [] := List.length_pos_iff.mp hwf.2
    simp [hs, Sending.whole, Sending.coming, hne, hpos.ne']
  | cpldQwn => simp [hpos.ne']
  | cpldQwnw => simp [hpos.ne']
  | _ =>
    rw [hstate] at hmeets
    obtain ⟨rest, hs⟩ := hmeets
    have hend' := h.finish_eq (by rw [hstate]; decide)
    have hwen' : s.rx.h2fFifoWen = false := by
      by_contra h'
      rcases hwen (by simpa using h') with h' | h' <;> exact absurd (hstate.symm.trans h') (by decide)
    simp [hs, Sending.whole, Sending.coming, hend', hwen']

/-- No completion has the length code 0, which stands for 1024 DWords. -/
structure Short (s : RxSide) : Prop where
  opened : 0 < s.rx.opened → s.rx.cpldRecvLen ≠ 0
  whole : ∀ hd p, s.sending = .header hd p → hd.extractLsb' 32 10 ≠ 0

theorem short_start : Short {} := by
  refine ⟨?_, ?_⟩
  · intro h
    exact absurd h (lt_irrefl 0)
  · rintro _ _ ⟨⟩

theorem Short.load (h : s.Short) (hlen : ∀ p, c.tlp = some (.completion p) →
    p.header.extractLsb' 32 10 ≠ 0) : (s.load c).Short := by
  by_cases hidle : s.sending = .idle
  · cases htlp : c.tlp with
    | none =>
      rw [load_of_none htlp]
      exact h
    | some tlp =>
      refine ⟨h.opened, ?_⟩
      rw [RxSide.load, current, hidle, htlp]
      cases tlp with
      | completion p =>
        intro hd q heq
        obtain ⟨rfl, -⟩ := Sending.header.inj heq
        exact hlen p htlp
      | other o => rintro _ _ ⟨⟩
  · rw [load_of_busy hidle]
    exact h

theorem rest_ne_header (x : Sending) (hd : BitVec 64) (p : List (BitVec 32)) :
    x.rest ≠ .header hd p := by
  rw [Sending.rest.eq_def]
  split
  case h_7 => split <;> rintro ⟨⟩
  all_goals rintro ⟨⟩

theorem Short.clock (h : s.Short) (hr : s.Receiving) : (s.clock c).Short := by
  refine ⟨fun hopened => ?_, fun hd p heq => ?_⟩
  · have hrx : (s.clock c).rx = s.rx.next (s.rxIn c) := rfl
    by_cases hstate : s.rx.pcieRxState = .rst
    · -- only a header opens a completion
      have hwhole := hr.uncounted_rst (c := c) hstate
      have hpos : 0 < s.sending.whole := by
        rw [← hwhole, uncounted]
        omega
      cases hs : s.sending with
      | header hd p =>
        cases hgap : c.gap with
        | true =>
          have hrst : (s.clock c).rx.opened = 0 := by
            have hsrc := rxIn_gap (s := s) (.inl hgap)
            rw [hrx, RxWrapper.next, hstate]
            simp [RxWrapper.nextRst, hsrc, RxWrapper.opened, hstate]
          omega
        | false =>
          have hfmt := hr.wf
          rw [hs] at hfmt
          rw [rx_header hstate hs hgap hfmt.1]
          exact h.whole hd p hs
      | _ =>
        rw [hs] at hpos
        cases hpos
    · by_cases haccess : s.rx.pcieRxState = .mrd32Qw1 ∨ s.rx.pcieRxState = .mwr32Qw1
      · have hfinish := hr.finish_eq hstate
        have hnone : (s.clock c).rx.opened = 0 := by
          rw [hrx, RxWrapper.next]
          rcases haccess with h' | h' <;> rw [h'] <;> simp only <;> split <;>
            simp [RxWrapper.opened, hfinish, h']
        omega
      · have hcpld : s.rx.pcieRxState = .cpldQw1 ∨ s.rx.pcieRxState = .cpldQwn ∨
            s.rx.pcieRxState = .cpldQwnw := by
          cases hst : s.rx.pcieRxState <;> simp_all
        have hlen := (RxWrapper.goesOn_next (i := s.rxIn c) hcpld).1
        by_cases h0 : s.rx.cpldRecvLen = 0
        · refine absurd h0 (h.opened ?_)
          rw [RxWrapper.opened, h0]
          rcases hcpld with h' | h' | h' <;> rw [h'] <;> simp [dwords]
        · rw [hrx, hlen]
          exact h0
  · have hclock : (s.clock c).sending =
        if c.gap || s.rx.trnRdstRdyN then s.sending else s.sending.rest := rfl
    rw [hclock] at heq
    split at heq
    · exact h.whole hd p heq
    · exact absurd heq (rest_ne_header _ _ _)

end RxSide

end PcieCsr

end LeapPlatforms
