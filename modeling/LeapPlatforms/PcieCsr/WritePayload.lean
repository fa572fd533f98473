import LeapPlatforms.Foundation.TransitionSystem
import LeapPlatforms.PcieCsr.TxWrapper
import Mathlib.Data.List.Basic

/-!
# The payload of memory writes

A word of the write FIFO is in the FIFO, in the register `f2h_data_tmp` or on the output register.
The machine keeps the three apart while the endpoint stalls with words in the FIFO; a stall that
meets an empty FIFO, or a FIFO that runs empty behind a stall, makes it send a word twice, lose one
or stop.

## Main definitions

* `Endpoint`, `Endpoint.take` — an endpoint that checks the quadwords it takes
* `WriteRun`, `Clock`, `WriteRun.next` — the transmitter among what surrounds it
* `Careful`, `carefulWrites`
* `Settled`, `Follows`

## Main results

* `settled_of_reachable`, `follows_of_reachable`
-/

namespace LeapPlatforms

namespace PcieCsr

/-! ### The endpoint -/

/-- Where in a TLP the endpoint is. -/
inductive Phase
  /-- Between two TLPs. -/
  | idle
  /-- At the second and last quadword of a TLP without payload. -/
  | last
  /-- At the second quadword of a write with so many quadwords of payload. -/
  | addr (n : ℕ)
  /-- At the payload, with so many quadwords to come. -/
  | payload (n : ℕ)
  deriving DecidableEq

/-- An endpoint that knows the words of the FIFO: the ones whose turn is still to come. -/
structure Endpoint where
  phase : Phase
  stream : List (BitVec 64)
  deriving DecidableEq

/-- How many quadwords of payload a length asks for. -/
def quadwords (len : BitVec 10) : ℕ := dwords len / 2

namespace Endpoint

/-- Take a quadword, if it is the one that has to come next: headers are framed, and the payload is
the next words with their halves swapped, the last of them with the end of frame. -/
def take (e : Endpoint) (b : Beat) : Option Endpoint :=
  match e.phase with
  | .idle =>
    if b.tsofN = false ∧ b.teofN = true then
      some { e with
        phase :=
          if b.td.extractLsb' 56 7 = pcieMwr64FmtType then .addr (quadwords (b.td.extractLsb' 32 10))
          else .last }
    else none
  | .last => if b.tsofN = true ∧ b.teofN = false then some { e with phase := .idle } else none
  | .addr n => if b.tsofN = true ∧ b.teofN = true then some { e with phase := .payload n } else none
  | .payload n =>
    match e.stream with
    | [] => none
    | w :: ws =>
      if b.td = swapHalves w ∧ b.tsofN = true ∧ b.teofN = decide (n ≠ 1) then
        some { phase := if n = 1 then .idle else .payload (n - 1), stream := ws }
      else none

/-- Take quadwords one after the other. -/
def takeAll (e : Endpoint) (l : List Beat) : Option Endpoint := l.foldlM take e

end Endpoint

/-! ### Lengths -/

variable {len : BitVec 10}

/-- Only the length 2 asks for one quadword. -/
theorem quadwords_eq_one (heven : len.toNat % 2 = 0) : quadwords len = 1 ↔ len = 2 := by
  rw [quadwords, dwords]
  split
  · subst len
    decide
  · refine ⟨fun h => ?_, fun h => by rw [h]; rfl⟩
    refine BitVec.eq_of_toNat_eq ?_
    show len.toNat = 2
    omega

theorem even_sub_two (heven : len.toNat % 2 = 0) : (len - 2).toNat % 2 = 0 := by
  rw [BitVec.toNat_sub]
  show (1024 - 2 + len.toNat) % 1024 % 2 = 0
  omega

/-- A quadword less, also from the code 0. -/
theorem quadwords_sub_two (heven : len.toNat % 2 = 0) (hlast : len ≠ 2) :
    quadwords (len - 2) = quadwords len - 1 := by
  have hlt := len.isLt
  have hsub : (len - 2).toNat = (1024 - 2 + len.toNat) % 1024 := BitVec.toNat_sub ..
  have hne : len.toNat ≠ 2 := fun h => hlast (BitVec.eq_of_toNat_eq h)
  have hrest : len - 2 ≠ 0 := by
    intro h
    have h0 : (len - 2).toNat = 0 := by rw [h]; rfl
    omega
  rw [quadwords, quadwords, dwords, dwords, if_neg hrest]
  split
  · subst len
    decide
  · have hpos : len.toNat ≠ 0 := fun h => ‹len ≠ 0› (BitVec.eq_of_toNat_eq h)
    omega

theorem quadwords_pos (heven : len.toNat % 2 = 0) : 0 < quadwords len := by
  rw [quadwords, dwords]
  split
  · decide
  · have hpos : len.toNat ≠ 0 := fun h => ‹len ≠ 0› (BitVec.eq_of_toNat_eq h)
    omega

namespace Endpoint

variable {e e' e'' : Endpoint} {l l' : List Beat}

@[simp] theorem takeAll_nil (e : Endpoint) : e.takeAll [] = some e := rfl

@[simp] theorem takeAll_one (e : Endpoint) (b : Beat) : e.takeAll [b] = e.take b := by
  rw [takeAll, List.foldlM_cons]
  cases e.take b <;> rfl

theorem takeAll_of_append (h : e.takeAll (l ++ l') = some e'') : ∃ e', e.takeAll l = some e' := by
  rw [takeAll, List.foldlM_append] at h
  obtain ⟨e', he', -⟩ := Option.bind_eq_some_iff.mp h
  exact ⟨e', he'⟩

theorem takeAll_append (h : e.takeAll l = some e') : e.takeAll (l ++ l') = e'.takeAll l' := by
  rw [takeAll] at h
  rw [takeAll, List.foldlM_append, h]
  rfl

/-- Words that arrive later do not change what was taken. -/
theorem take_arrive {b : Beat} (h : e.take b = some e') (x : List (BitVec 64)) :
    take ⟨e.phase, e.stream ++ x⟩ b = some ⟨e'.phase, e'.stream ++ x⟩ := by
  obtain ⟨phase, stream⟩ := e
  rw [take] at h ⊢
  cases phase with
  | idle | last | addr =>
    simp only at h ⊢
    split at h
    · rename_i hb
      rw [if_pos hb]
      cases h
      rfl
    · cases h
  | payload n =>
    cases stream with
    | nil => cases h
    | cons w ws =>
      simp only [List.cons_append] at h ⊢
      split at h
      · rename_i hb
        rw [if_pos hb]
        cases h
        rfl
      · cases h

theorem takeAll_arrive (h : e.takeAll l = some e') (x : List (BitVec 64)) :
    takeAll ⟨e.phase, e.stream ++ x⟩ l = some ⟨e'.phase, e'.stream ++ x⟩ := by
  induction l generalizing e with
  | nil =>
    cases h
    rfl
  | cons b l ih =>
    rw [takeAll, List.foldlM_cons] at h ⊢
    obtain ⟨f, hf, hrest⟩ := Option.bind_eq_some_iff.mp h
    rw [take_arrive hf x]
    exact ih hrest

end Endpoint

/-! ### Runs -/

/-- A write request of whole quadwords. -/
def WriteReq : Type := { r : MemReq // r.len.toNat % 2 = 0 }

/-- The transmitter, the request at its input, the write FIFO, and what went in and out. -/
structure WriteRun where
  tx : TxWrapper := {}
  request : Option WriteReq := none
  fifo : List (BitVec 64) := []
  arrived : List (BitVec 64) := []
  accepted : List Beat := []

/-- What surrounds the transmitter in a clock: the other input signals, the words that arrive and
the next write request. -/
structure Clock where
  others : TxIn
  arrive : List (BitVec 64)
  request : Option WriteReq

namespace WriteRun

variable (s : WriteRun) (c : Clock)

/-- The input signals: the FIFO shows its head while it has one. -/
def inputs : TxIn :=
  { c.others with
    mwr64Start := s.request.isSome
    mwr64 := (s.request.map Subtype.val).getD c.others.mwr64
    f2hFifoValid := !s.fifo.isEmpty
    f2hFifoData := s.fifo.headD c.others.f2hFifoData }

/-- The quadword on the output register. -/
def offered : List Beat := s.tx.offered

/-- A rising clock edge: the endpoint takes what is offered if it is ready, the FIFO drops its head
if it is read, and the requester keeps its request until it is acknowledged. -/
def next : WriteRun where
  tx := s.tx.next (s.inputs c)
  request := if s.tx.mwr64StartAck || s.request.isNone then c.request else s.request
  fifo := (if s.tx.sm.f2hFifoRen then s.fifo.tail else s.fifo) ++ c.arrive
  arrived := s.arrived ++ c.arrive
  accepted := s.accepted ++ if c.others.trnTdstRdyN then [] else s.offered

/-- Run through the clocks. -/
def run (cs : List Clock) : WriteRun := cs.foldl next s

/-- The state after so many clocks of an endless run. -/
def after (s : WriteRun) (cs : ℕ → Clock) : ℕ → WriteRun
  | 0 => s
  | n + 1 => after (s.next (cs 0)) (fun k => cs (k + 1)) n

/-- How many words the current TLP still needs. -/
def wordsLeft : ℕ :=
  match s.tx.sm.pcieTxState with
  | .mwr64Qw1 | .mwr64Qwn => quadwords s.tx.sm.mwr64LenRem
  | _ => 0

/-- Where the endpoint is when it has taken what is offered. -/
def phase : Phase :=
  match s.tx.sm.pcieTxState with
  | .cpldQw1 | .mrd64ReqQw1 => .last
  | .mwr64Qw1 => .addr (quadwords s.tx.sm.mwr64LenRem)
  | .mwr64Qwn => .payload (quadwords s.tx.sm.mwr64LenRem)
  | .rst | .cpldQwLast | .mrd64ReqQwLast | .mwr64QwLast => .idle

/-- The words that are still to be offered. -/
def waiting : List (BitVec 64) :=
  (if s.tx.sm.f2hDataTmpValid then [s.tx.sm.f2hDataTmp] else []) ++ s.fifo

end WriteRun

/-! ### The endpoint follows -/

variable {s : WriteRun} {c : Clock}

/-- What a clock must not do: stall without a quadword on the output register, show a word right
after a stall that met an empty FIFO, resume from a stall while the FIFO is empty, or stall when the
last word of the TLP is read and none is behind it. -/
structure Careful (s : WriteRun) (c : Clock) : Prop where
  bubble : s.tx.sm.pcieTxState = .mwr64Qwn → s.tx.sm.trnTsrcRdyN = true →
    c.others.trnTdstRdyN = false
  starved : s.tx.sm.pcieTxState = .mwr64Qwn → s.tx.sm.f2hFifoRen = false →
    s.tx.sm.f2hDataTmpValid = false → s.fifo = []
  resume : s.tx.sm.pcieTxState = .mwr64Qwn → s.tx.sm.f2hDataTmpValid = true →
    c.others.trnTdstRdyN = false → s.fifo ≠ []
  last : s.tx.sm.pcieTxState = .mwr64Qwn → s.tx.sm.mwr64LenRem = 2 →
    s.tx.sm.f2hDataTmpValid = false → c.others.trnTdstRdyN = true → s.fifo ≠ [] →
    s.fifo.tail ++ c.arrive ≠ []

set_option synthInstance.maxSize 512 in
instance (s : WriteRun) (c : Clock) : Decidable (Careful s c) :=
  decidable_of_iff
    ((s.tx.sm.pcieTxState = .mwr64Qwn → s.tx.sm.trnTsrcRdyN = true →
        c.others.trnTdstRdyN = false) ∧
      (s.tx.sm.pcieTxState = .mwr64Qwn → s.tx.sm.f2hFifoRen = false →
        s.tx.sm.f2hDataTmpValid = false → s.fifo = []) ∧
      (s.tx.sm.pcieTxState = .mwr64Qwn → s.tx.sm.f2hDataTmpValid = true →
        c.others.trnTdstRdyN = false → s.fifo ≠ []) ∧
      (s.tx.sm.pcieTxState = .mwr64Qwn → s.tx.sm.mwr64LenRem = 2 →
        s.tx.sm.f2hDataTmpValid = false → c.others.trnTdstRdyN = true → s.fifo ≠ [] →
        s.fifo.tail ++ c.arrive ≠ []))
    ⟨fun h => ⟨h.1, h.2.1, h.2.2.1, h.2.2.2⟩, fun h => ⟨h.1, h.2, h.3, h.4⟩⟩

/-- The transmitter from its reset on, in careful clocks. -/
def carefulWrites : TransitionSystem WriteRun where
  init s := s = {}
  step s t := ∃ c, Careful s c ∧ t = s.next c

/-- What the registers say about each other. -/
structure Settled (s : WriteRun) : Prop where
  /-- Nothing is offered at rest. -/
  rest : s.tx.sm.pcieTxState = .rst → s.tx.sm.trnTsrcRdyN = true
  /-- Within a TLP, a quadword is missing only while the FIFO is read. -/
  bubble : s.tx.sm.trnTsrcRdyN = true →
    s.tx.sm.pcieTxState = .rst ∨ s.tx.sm.pcieTxState = .mwr64Qwn ∧ s.tx.sm.f2hFifoRen = true
  /-- The FIFO is read for the payload only. -/
  ren : s.tx.sm.f2hFifoRen = true → s.tx.sm.pcieTxState = .mwr64Qwn
  /-- A word is set aside in a stall. -/
  skid : s.tx.sm.f2hDataTmpValid = true → s.tx.sm.pcieTxState = .mwr64Qwn ∧
    s.tx.sm.f2hFifoRen = false ∧ s.tx.sm.trnTsrcRdyN = false
  /-- The last word is set aside with one behind it. -/
  last : s.tx.sm.f2hDataTmpValid = true → s.tx.sm.mwr64LenRem = 2 → s.fifo ≠ []
  /-- A header has no end of frame. -/
  header : s.tx.sm.pcieTxState = .mwr64Qw1 → s.tx.sm.trnTeofN = true
  /-- The payload has no start of frame. -/
  body : s.tx.sm.pcieTxState = .mwr64Qwn → s.tx.sm.trnTsofN = true
  /-- Whole quadwords are left. -/
  even : s.tx.sm.pcieTxState = .mwr64Qw1 ∨ s.tx.sm.pcieTxState = .mwr64Qwn →
    s.tx.sm.mwr64LenRem.toNat % 2 = 0
  /-- The write that was latched is still at the input. -/
  held : s.tx.sm.pcieTxState = .rst → s.tx.arb.txSelFlag = .doTxMwr64 →
    s.request.map Subtype.val = some s.tx.arb.mwr64C
  /-- It is acknowledged while its header is offered. -/
  ack : s.tx.mwr64StartAck = true → s.tx.sm.pcieTxState = .mwr64Qw1

/-- The endpoint takes everything, and waits for the words that were not offered yet. -/
def Follows (s : WriteRun) : Prop :=
  Endpoint.takeAll ⟨.idle, s.arrived⟩ (s.accepted ++ s.offered) = some ⟨s.phase, s.waiting⟩

/-- What is offered is taken, or nothing was, and the next quadword is the right one. -/
theorem Follows.advance (h : Follows s)
    (htaken : c.others.trnTdstRdyN = false ∨ s.tx.sm.trnTsrcRdyN = true) {w : List (BitVec 64)}
    (hnext : Endpoint.takeAll ⟨s.phase, s.waiting⟩ (s.next c).offered =
      some ⟨(s.next c).phase, w⟩)
    (hw : (s.next c).waiting = w ++ c.arrive) : Follows (s.next c) := by
  have haccepted : (s.next c).accepted = s.accepted ++ s.offered := by
    show s.accepted ++ (if c.others.trnTdstRdyN then [] else s.offered) = s.accepted ++ s.offered
    rcases htaken with hready | hnone
    · rw [hready]
      rfl
    · rw [WriteRun.offered, TxWrapper.offered, hnone]
      cases c.others.trnTdstRdyN <;> rfl
  have harrive := Endpoint.takeAll_arrive h c.arrive
  rw [Follows, haccepted, hw]
  exact (Endpoint.takeAll_append harrive).trans (Endpoint.takeAll_arrive hnext c.arrive)

/-- The endpoint stalls and the offer stands. -/
theorem Follows.hold (h : Follows s) (hstall : c.others.trnTdstRdyN = true)
    (hoffered : (s.next c).offered = s.offered) (hphase : (s.next c).phase = s.phase)
    (hw : (s.next c).waiting = s.waiting ++ c.arrive) : Follows (s.next c) := by
  have haccepted : (s.next c).accepted = s.accepted := by
    show s.accepted ++ (if c.others.trnTdstRdyN then [] else s.offered) = s.accepted
    rw [hstall]
    exact List.append_nil _
  rw [Follows, haccepted, hoffered, hphase, hw]
  exact Endpoint.takeAll_arrive h c.arrive

theorem waiting_of {s : WriteRun} (h : s.tx.sm.f2hDataTmpValid = false) : s.waiting = s.fifo := by
  rw [WriteRun.waiting, h]
  rfl

theorem next_fifo (h : s.tx.sm.f2hFifoRen = false) : (s.next c).fifo = s.fifo ++ c.arrive := by
  show (if s.tx.sm.f2hFifoRen then s.fifo.tail else s.fifo) ++ c.arrive = _
  rw [h]
  rfl

theorem Settled.ren_eq (hs : Settled s) (hqwn : s.tx.sm.pcieTxState ≠ .mwr64Qwn) :
    s.tx.sm.f2hFifoRen = false := by
  by_contra hren
  exact hqwn (hs.ren (by simpa using hren))

theorem Settled.skid_eq (hs : Settled s) (hqwn : s.tx.sm.pcieTxState ≠ .mwr64Qwn) :
    s.tx.sm.f2hDataTmpValid = false := by
  by_contra hskid
  exact hqwn (hs.skid (by simpa using hskid)).1

/-- The machine rests: nothing is offered, and the next TLP starts with its header. -/
theorem Follows.step_rst (h : Follows s) (hs : Settled s) (hstate : s.tx.sm.pcieTxState = .rst) :
    Follows (s.next c) := by
  have hqwn : s.tx.sm.pcieTxState ≠ .mwr64Qwn := by
    rw [hstate]
    decide
  have hren := hs.ren_eq hqwn
  have hskid := hs.skid_eq hqwn
  have hsm : (s.next c).tx.sm = s.tx.mainRst (s.inputs c) := by
    show s.tx.mainSm (s.inputs c) = _
    rw [TxWrapper.mainSm, hstate]
  have hwaiting : (s.next c).waiting = s.waiting ++ c.arrive := by
    rw [waiting_of hskid, ← next_fifo hren]
    refine waiting_of ?_
    rw [hsm, TxWrapper.mainRst]
    cases s.tx.arb.txSelFlag <;> exact hskid
  refine h.advance (.inr (hs.rest hstate)) ?_ hwaiting
  have hphase : s.phase = .idle := by rw [WriteRun.phase, hstate]
  rw [hphase]
  cases hsel : s.tx.arb.txSelFlag with
  | doNothing =>
    have hoffered : (s.next c).offered = [] := by
      rw [WriteRun.offered, TxWrapper.offered, hsm, TxWrapper.mainRst, hsel]
      rfl
    have hphase' : (s.next c).phase = .idle := by
      rw [WriteRun.phase, hsm, TxWrapper.mainRst, hsel]
    rw [hoffered, hphase']
    rfl
  | doTxCpld =>
    rw [WriteRun.offered, TxWrapper.offered, WriteRun.phase, hsm, TxWrapper.mainRst, hsel]
    simp [Endpoint.take, cpldHeader_fmt, pcieCpldFmtType, pcieMwr64FmtType]
  | doTxMrd64Req =>
    rw [WriteRun.offered, TxWrapper.offered, WriteRun.phase, hsm, TxWrapper.mainRst, hsel]
    simp [Endpoint.take, mrd64Header_fmt, pcieMrd64FmtType, pcieMwr64FmtType]
  | doTxMwr64 =>
    -- the live length is the one in the header
    have hlive : (s.inputs c).mwr64 = s.tx.arb.mwr64C := by
      show (s.request.map Subtype.val).getD c.others.mwr64 = _
      rw [hs.held hstate hsel]
      rfl
    rw [WriteRun.offered, TxWrapper.offered, WriteRun.phase, hsm, TxWrapper.mainRst, hsel, hlive]
    simp [Endpoint.take, mwr64Header_fmt, mwr64Header_len]

/-- A header or the last quadword is stalled. -/
theorem Follows.step_stall (h : Follows s) (hs : Settled s) (hstall : c.others.trnTdstRdyN = true)
    (hrst : s.tx.sm.pcieTxState ≠ .rst) (hqwn : s.tx.sm.pcieTxState ≠ .mwr64Qwn) :
    Follows (s.next c) := by
  have hsm : (s.next c).tx.sm = s.tx.sm := s.tx.mainSm_stall (s.inputs c) hstall hrst hqwn
  have hskid := hs.skid_eq hqwn
  refine h.hold hstall ?_ ?_ ?_
  · rw [WriteRun.offered, WriteRun.offered, TxWrapper.offered, TxWrapper.offered, hsm]
  · rw [WriteRun.phase, WriteRun.phase, hsm]
  · rw [waiting_of hskid, ← next_fifo (hs.ren_eq hqwn)]
    refine waiting_of ?_
    rw [hsm]
    exact hskid

/-- A header or the last quadword is taken. -/
theorem Follows.step_ready (h : Follows s) (hs : Settled s)
    (hready : c.others.trnTdstRdyN = false) (hrst : s.tx.sm.pcieTxState ≠ .rst)
    (hqwn : s.tx.sm.pcieTxState ≠ .mwr64Qwn) : Follows (s.next c) := by
  have hskid := hs.skid_eq hqwn
  have hin : (s.inputs c).trnTdstRdyN = false := hready
  have hwaiting : (s.next c).waiting = s.waiting ++ c.arrive := by
    rw [waiting_of hskid, ← next_fifo (hs.ren_eq hqwn)]
    refine waiting_of ?_
    show (s.tx.mainSm (s.inputs c)).f2hDataTmpValid = false
    rw [TxWrapper.mainSm]
    cases hstate : s.tx.sm.pcieTxState with
    | rst => exact absurd hstate hrst
    | mwr64Qwn => exact absurd hstate hqwn
    | _ => simpa [hin] using hskid
  refine h.advance (.inl hready) ?_ hwaiting
  have hsm : (s.next c).tx.sm = s.tx.mainSm (s.inputs c) := rfl
  rw [WriteRun.offered, TxWrapper.offered, WriteRun.phase, WriteRun.phase, hsm, TxWrapper.mainSm]
  cases hstate : s.tx.sm.pcieTxState with
  | rst => exact absurd hstate hrst
  | mwr64Qwn => exact absurd hstate hqwn
  | mwr64Qw1 => simp [hin, Endpoint.take, hs.header hstate]
  | _ => simp [hin, Endpoint.take]

/-- The endpoint is ready in the payload, and the next word goes out. -/
theorem Follows.step_word (h : Follows s) (hs : Settled s) (hc : Careful s c)
    (hstate : s.tx.sm.pcieTxState = .mwr64Qwn) (hready : c.others.trnTdstRdyN = false)
    (hvalid : s.fifo ≠ []) : Follows (s.next c) := by
  obtain ⟨w, ws, hfifo⟩ := List.exists_cons_of_ne_nil hvalid
  have hin : (s.inputs c).trnTdstRdyN = false := hready
  have hhead : (s.inputs c).f2hFifoValid = true := by
    show (!s.fifo.isEmpty) = true
    rw [hfifo]
    rfl
  have hdata : (s.inputs c).f2hFifoData = w := by
    show s.fifo.headD _ = w
    rw [hfifo]
    rfl
  have heven := hs.even (.inr hstate)
  have hbody := hs.body hstate
  have hphase : s.phase = .payload (quadwords s.tx.sm.mwr64LenRem) := by
    rw [WriteRun.phase, hstate]
  have hsm : (s.next c).tx.sm = s.tx.mainQwn (s.inputs c) := by
    show s.tx.mainSm (s.inputs c) = _
    rw [TxWrapper.mainSm, hstate]
  -- one word is sent, from the register or from the FIFO, and the others wait
  obtain ⟨v, vs, hwaiting, htd, hrest⟩ : ∃ v vs, s.waiting = v :: vs ∧
      (if s.tx.sm.f2hDataTmpValid then s.tx.sm.f2hDataTmp else (s.inputs c).f2hFifoData) = v ∧
      (s.next c).fifo = vs ++ c.arrive := by
    cases hskid : s.tx.sm.f2hDataTmpValid with
    | true =>
      refine ⟨s.tx.sm.f2hDataTmp, s.fifo, ?_, rfl, next_fifo (hs.skid hskid).2.1⟩
      rw [WriteRun.waiting, hskid]
      rfl
    | false =>
      have hren : s.tx.sm.f2hFifoRen = true := by
        by_contra hren
        exact hvalid (hc.starved hstate (by simpa using hren) hskid)
      refine ⟨w, ws, ?_, hdata, ?_⟩
      · rw [waiting_of hskid, hfifo]
      · show (if s.tx.sm.f2hFifoRen then s.fifo.tail else s.fifo) ++ c.arrive = _
        rw [hren, hfifo]
        rfl
  refine h.advance (w := vs) (.inl hready) ?_ ?_
  · rw [hwaiting, hphase, WriteRun.offered, TxWrapper.offered, WriteRun.phase, hsm,
      TxWrapper.mainQwn, if_pos hin,
      if_pos hhead, htd]
    by_cases hlast : s.tx.sm.mwr64LenRem = 2#10
    · have hone : quadwords 2#10 = 1 := rfl
      simp [Endpoint.take, hlast, hbody, hone]
    · have hmore : quadwords s.tx.sm.mwr64LenRem ≠ 1 :=
        fun h => hlast ((quadwords_eq_one heven).mp h)
      have hleft : quadwords (s.tx.sm.mwr64LenRem - 2#10) = quadwords s.tx.sm.mwr64LenRem - 1 :=
        quadwords_sub_two heven hlast
      simp [Endpoint.take, hlast, hbody, hmore, hleft]
  · rw [← hrest]
    refine waiting_of ?_
    rw [hsm, TxWrapper.mainQwn, if_pos hin, if_pos hhead]

/-- The endpoint is ready in the payload and the FIFO is empty. -/
theorem Follows.step_bubble (h : Follows s) (hc : Careful s c)
    (hstate : s.tx.sm.pcieTxState = .mwr64Qwn) (hready : c.others.trnTdstRdyN = false)
    (hempty : s.fifo = []) : Follows (s.next c) := by
  have hin : (s.inputs c).trnTdstRdyN = false := hready
  have hhead : ¬ (s.inputs c).f2hFifoValid = true := by
    show ¬ (!s.fifo.isEmpty) = true
    rw [hempty]
    decide
  have hskid : s.tx.sm.f2hDataTmpValid = false := by
    by_contra hskid
    exact hc.resume hstate (by simpa using hskid) hready hempty
  have hsm : (s.next c).tx.sm = s.tx.mainQwn (s.inputs c) := by
    show s.tx.mainSm (s.inputs c) = _
    rw [TxWrapper.mainSm, hstate]
  refine h.advance (w := s.waiting) (.inl hready) ?_ ?_
  · rw [WriteRun.offered, TxWrapper.offered, WriteRun.phase, WriteRun.phase, hsm,
      TxWrapper.mainQwn, if_pos hin,
      if_neg hhead, hstate]
    rfl
  · have hfifo : (s.next c).fifo = s.fifo ++ c.arrive := by
      show (if s.tx.sm.f2hFifoRen then s.fifo.tail else s.fifo) ++ c.arrive = _
      rw [hempty, List.tail_nil, ite_self]
    rw [waiting_of hskid, ← hfifo]
    refine waiting_of ?_
    rw [hsm, TxWrapper.mainQwn, if_pos hin, if_neg hhead]
    exact hskid

/-- The endpoint stalls in the payload; a word that is read meanwhile is set aside. -/
theorem Follows.step_skid (h : Follows s) (hs : Settled s) (hc : Careful s c)
    (hstate : s.tx.sm.pcieTxState = .mwr64Qwn) (hstall : c.others.trnTdstRdyN = true) :
    Follows (s.next c) := by
  have hin : ¬ (s.inputs c).trnTdstRdyN = false := by
    show ¬ c.others.trnTdstRdyN = false
    simp [hstall]
  have hoffers : s.tx.sm.trnTsrcRdyN = false := by
    by_contra hnone
    have hready := hc.bubble hstate (by simpa using hnone)
    rw [hstall] at hready
    cases hready
  have hsm : (s.next c).tx.sm = s.tx.mainQwn (s.inputs c) := by
    show s.tx.mainSm (s.inputs c) = _
    rw [TxWrapper.mainSm, hstate]
  refine h.hold hstall ?_ ?_ ?_
  · rw [WriteRun.offered, WriteRun.offered, TxWrapper.offered, TxWrapper.offered,
      hsm, TxWrapper.mainQwn, if_neg hin, hoffers]
  · rw [WriteRun.phase, WriteRun.phase, hsm, TxWrapper.mainQwn, if_neg hin, hstate]
  · rw [WriteRun.waiting, hsm, TxWrapper.mainQwn, if_neg hin]
    cases hskid : s.tx.sm.f2hDataTmpValid with
    | true =>
      rw [WriteRun.waiting, hskid, next_fifo (hs.skid hskid).2.1]
      simp
    | false =>
      rw [waiting_of hskid]
      cases hfifo : s.fifo with
      | nil =>
        have hrest : (s.next c).fifo = c.arrive := by
          show (if s.tx.sm.f2hFifoRen then s.fifo.tail else s.fifo) ++ c.arrive = _
          rw [hfifo, List.tail_nil, ite_self, List.nil_append]
        simp [WriteRun.inputs, hfifo, hrest]
      | cons w ws =>
        have hren : s.tx.sm.f2hFifoRen = true := by
          by_contra hren
          have hnil := hc.starved hstate (by simpa using hren) hskid
          rw [hfifo] at hnil
          cases hnil
        have hrest : (s.next c).fifo = ws ++ c.arrive := by
          show (if s.tx.sm.f2hFifoRen then s.fifo.tail else s.fifo) ++ c.arrive = _
          rw [hren, hfifo]
          rfl
        simp [WriteRun.inputs, hfifo, hrest]

theorem Follows.step (h : Follows s) (hs : Settled s) (hc : Careful s c) : Follows (s.next c) := by
  by_cases hrst : s.tx.sm.pcieTxState = .rst
  · exact h.step_rst hs hrst
  · cases hready : c.others.trnTdstRdyN with
    | true =>
      by_cases hqwn : s.tx.sm.pcieTxState = .mwr64Qwn
      · exact h.step_skid hs hc hqwn hready
      · exact h.step_stall hs hready hrst hqwn
    | false =>
      by_cases hqwn : s.tx.sm.pcieTxState = .mwr64Qwn
      · by_cases hfifo : s.fifo = []
        · exact h.step_bubble hc hqwn hready hfifo
        · exact h.step_word hs hc hqwn hready hfifo
      · exact h.step_ready hs hready hrst hqwn

/-! ### The registers agree -/

/-- The write that was latched is at the input when the machine comes to rest. -/
theorem held_step (hs : Settled s) (hrst : (s.next c).tx.sm.pcieTxState = .rst)
    (hsel : (s.next c).tx.arb.txSelFlag = .doTxMwr64) :
    (s.next c).request.map Subtype.val = some (s.next c).tx.arb.mwr64C := by
  obtain ⟨hchoose, -, -, hqw1⟩ := TxWrapper.choose_of_rst (s := s.tx) (i := s.inputs c) hrst
  have harb : (s.next c).tx.arb = s.tx.arb.choose (s.inputs c) := hchoose
  rw [harb] at hsel ⊢
  obtain ⟨hstart, hlatched⟩ := Arbiter.choose_doTxMwr64 hsel
  have hack : s.tx.mwr64StartAck = false := by
    by_contra hack
    exact hqw1 (hs.ack (by simpa using hack))
  obtain ⟨r, hr⟩ := Option.isSome_iff_exists.mp (show s.request.isSome = true from hstart)
  have hrequest : (s.next c).request = s.request := by
    show (if s.tx.mwr64StartAck || s.request.isNone then c.request else s.request) = s.request
    rw [hack, hr]
    rfl
  have hmwr : (s.inputs c).mwr64 = r.val := by
    show (s.request.map Subtype.val).getD c.others.mwr64 = _
    rw [hr]
    rfl
  rw [hrequest, hr, hlatched, hmwr]
  rfl

/-- The machine rests. -/
theorem Settled.step_rst (hs : Settled s) (hstate : s.tx.sm.pcieTxState = .rst) :
    Settled (s.next c) := by
  have hqwn : s.tx.sm.pcieTxState ≠ .mwr64Qwn := by
    rw [hstate]
    decide
  have hren := hs.ren_eq hqwn
  have hskid := hs.skid_eq hqwn
  have hrest := hs.rest hstate
  have hsm : (s.next c).tx.sm = s.tx.mainRst (s.inputs c) := by
    show s.tx.mainSm (s.inputs c) = _
    rw [TxWrapper.mainSm, hstate]
  have hheld := hs.held hstate
  refine ⟨?_, ?_, ?_, ?_, ?_, ?_, ?_, ?_, held_step hs, ?_⟩
  all_goals rw [hsm, TxWrapper.mainRst]
  · cases s.tx.arb.txSelFlag <;> simp
  · cases s.tx.arb.txSelFlag <;> simp
  · cases s.tx.arb.txSelFlag <;> simp [hren]
  · cases s.tx.arb.txSelFlag <;> simp [hskid]
  · cases s.tx.arb.txSelFlag <;> simp [hskid]
  · cases s.tx.arb.txSelFlag <;> simp
  · cases s.tx.arb.txSelFlag <;> simp
  · cases hsel : s.tx.arb.txSelFlag with
    | doTxMwr64 =>
      intro _
      obtain ⟨r, hr, -⟩ := Option.map_eq_some_iff.mp (hheld hsel)
      show (((s.request.map Subtype.val).getD c.others.mwr64).len).toNat % 2 = 0
      rw [hr]
      exact r.2
    | _ => simp
  · intro hack
    have hsel := (TxWrapper.mainSm_of_startAck hack).2
    rw [hsel]

/-- A stall outside of the payload. -/
theorem Settled.step_stall (hs : Settled s) (hstall : c.others.trnTdstRdyN = true)
    (hrst : s.tx.sm.pcieTxState ≠ .rst) (hqwn : s.tx.sm.pcieTxState ≠ .mwr64Qwn) :
    Settled (s.next c) := by
  have hsm : (s.next c).tx.sm = s.tx.sm := s.tx.mainSm_stall (s.inputs c) hstall hrst hqwn
  have hskid := hs.skid_eq hqwn
  refine ⟨?_, ?_, ?_, ?_, ?_, ?_, ?_, ?_, held_step hs, ?_⟩
  all_goals rw [hsm]
  · exact hs.rest
  · exact hs.bubble
  · exact hs.ren
  · exact hs.skid
  · exact fun h => absurd (hskid.symm.trans h) (by decide)
  · exact hs.header
  · exact hs.body
  · exact hs.even
  · exact fun hack => absurd (TxWrapper.mainSm_of_startAck hack).1 hrst

/-- A header or a last quadword is taken. -/
theorem Settled.step_ready (hs : Settled s) (hready : c.others.trnTdstRdyN = false)
    (hrst : s.tx.sm.pcieTxState ≠ .rst) (hqwn : s.tx.sm.pcieTxState ≠ .mwr64Qwn) :
    Settled (s.next c) := by
  have hin : (s.inputs c).trnTdstRdyN = false := hready
  have hren := hs.ren_eq hqwn
  have hskid := hs.skid_eq hqwn
  have heven := hs.even
  have hsm : (s.next c).tx.sm = s.tx.mainSm (s.inputs c) := rfl
  refine ⟨?_, ?_, ?_, ?_, ?_, ?_, ?_, ?_, held_step hs, ?_⟩
  case refine_9 => exact fun hack => absurd (TxWrapper.mainSm_of_startAck hack).1 hrst
  all_goals
    rw [hsm, TxWrapper.mainSm]
    cases hstate : s.tx.sm.pcieTxState with
    | rst => exact absurd hstate hrst
    | mwr64Qwn => exact absurd hstate hqwn
    | _ => simp_all

/-- A clock of the payload. -/
theorem Settled.step_qwn (hs : Settled s) (hc : Careful s c)
    (hstate : s.tx.sm.pcieTxState = .mwr64Qwn) : Settled (s.next c) := by
  have hbody := hs.body hstate
  have heven := hs.even (.inr hstate)
  have hsm : (s.next c).tx.sm = s.tx.mainQwn (s.inputs c) := by
    show s.tx.mainSm (s.inputs c) = _
    rw [TxWrapper.mainSm, hstate]
  have hack : ¬ (s.next c).tx.mwr64StartAck = true := by
    intro hack
    have hrst := (TxWrapper.mainSm_of_startAck hack).1
    rw [hstate] at hrst
    cases hrst
  cases hready : c.others.trnTdstRdyN with
  | true =>
    have hin : ¬ (s.inputs c).trnTdstRdyN = false := by
      show ¬ c.others.trnTdstRdyN = false
      simp [hready]
    refine ⟨?_, ?_, ?_, ?_, ?_, ?_, ?_, ?_, held_step hs, fun h => absurd h hack⟩
    all_goals rw [hsm, TxWrapper.mainQwn, if_neg hin]
    · simp [hstate]
    · simp
    · simp
    · simp [hstate]
    · -- the last word is set aside: another one is behind it
      intro hskid hlast
      by_cases hfifo : s.fifo = []
      · have hset : s.tx.sm.f2hDataTmpValid = true := by
          simpa [WriteRun.inputs, hfifo] using hskid
        exact absurd hfifo (hs.last hset hlast)
      · cases hset : s.tx.sm.f2hDataTmpValid with
        | true =>
          rw [next_fifo (hs.skid hset).2.1]
          simp [hfifo]
        | false =>
          have hren : s.tx.sm.f2hFifoRen = true := by
            by_contra hren
            exact hfifo (hc.starved hstate (by simpa using hren) hset)
          show (if s.tx.sm.f2hFifoRen then s.fifo.tail else s.fifo) ++ c.arrive ≠ []
          rw [hren]
          exact hc.last hstate hlast hset hready hfifo
    · simp [hstate]
    · simpa using fun _ => hbody
    · simpa using fun _ => heven
  | false =>
    have hin : (s.inputs c).trnTdstRdyN = false := hready
    by_cases hfifo : s.fifo = []
    · have hhead : ¬ (s.inputs c).f2hFifoValid = true := by simp [WriteRun.inputs, hfifo]
      have hskid : ¬ s.tx.sm.f2hDataTmpValid = true :=
        fun hskid => hc.resume hstate hskid hready hfifo
      refine ⟨?_, ?_, ?_, ?_, ?_, ?_, ?_, ?_, held_step hs, fun h => absurd h hack⟩
      all_goals
        rw [hsm, TxWrapper.mainQwn, if_pos hin, if_neg hhead]
        simp_all
    · have hhead : (s.inputs c).f2hFifoValid = true := by simp [WriteRun.inputs, hfifo]
      refine ⟨?_, ?_, ?_, ?_, ?_, ?_, ?_, ?_, held_step hs, fun h => absurd h hack⟩
      all_goals rw [hsm, TxWrapper.mainQwn, if_pos hin, if_pos hhead]
      · by_cases hlast : s.tx.sm.mwr64LenRem = 2#10 <;> simp [hlast]
      · simp
      · by_cases hlast : s.tx.sm.mwr64LenRem = 2#10 <;> simp [hlast]
      · simp
      · simp
      · by_cases hlast : s.tx.sm.mwr64LenRem = 2#10 <;> simp [hlast]
      · exact fun _ => hbody
      · exact fun _ => even_sub_two heven

theorem Settled.step (hs : Settled s) (hc : Careful s c) : Settled (s.next c) := by
  by_cases hrst : s.tx.sm.pcieTxState = .rst
  · exact hs.step_rst hrst
  · by_cases hqwn : s.tx.sm.pcieTxState = .mwr64Qwn
    · exact hs.step_qwn hc hqwn
    · cases hready : c.others.trnTdstRdyN with
      | true => exact hs.step_stall hready hrst hqwn
      | false => exact hs.step_ready hready hrst hqwn

theorem settled_of_reachable (h : carefulWrites.Reachable s) : Settled s := by
  refine h.invariant ?_ ?_
  · rintro s rfl
    refine ⟨fun _ => rfl, fun _ => .inl rfl, ?_, ?_, ?_, ?_, ?_, ?_, ?_, ?_⟩
    all_goals simp
  · rintro s t hs ⟨c, hc, rfl⟩
    exact hs.step hc

theorem follows_of_reachable (h : carefulWrites.Reachable s) : Follows s := by
  refine h.invariant_of_reachable ?_ ?_
  · rintro s rfl
    rfl
  · rintro s t hreach hs ⟨c, hc, rfl⟩
    exact hs.step (settled_of_reachable hreach) hc

end PcieCsr

end LeapPlatforms
