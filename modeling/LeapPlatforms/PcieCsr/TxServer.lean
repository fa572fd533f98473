import LeapPlatforms.Foundation.Handover
import LeapPlatforms.Foundation.Tiling
import LeapPlatforms.PcieCsr.TxWrapper

/-!
# The transmitter serves requests

For each of its two kinds of memory request the transmitter is a server in the sense of the
handover: it latches a request, starts its TLP, acknowledges it for one clock and finishes. A
monitor on the interface sees the header of the TLP when the request is served.

## Main definitions

* `Kind` — read requests and writes
* `Monitor`, `Monitor.watch` — the headers on the interface
* `TxWrapper.server` — the transmitter as a server
* `TxWrapper.Framed`, `Watched`

## Main results

* `TxWrapper.Framed.next`
* `Watched.next` — every clock is a step of both servers, and the monitor sees what they serve
-/

namespace LeapPlatforms

namespace PcieCsr

open Handing Tiling

/-! ### Headers on the interface -/

/-- The two kinds of memory request. -/
inductive Kind
  | read
  | write
  deriving DecidableEq

namespace Kind

def sel : Kind → TxSel
  | read => .doTxMrd64Req
  | write => .doTxMwr64

def fmtType : Kind → BitVec 7
  | read => pcieMrd64FmtType
  | write => pcieMwr64FmtType

end Kind

/-- The range that a TLP asks for: its address and its length. -/
def tlpPiece (header addr : BitVec 64) : Piece :=
  ⟨addr.toNat, 4 * dwords (header.extractLsb' 32 10)⟩

/-- The range of a request. -/
def MemReq.piece (r : MemReq) : Piece := ⟨(addrQw r).toNat, 4 * dwords r.len⟩

/-- A monitor on the interface: a header that waits for its second quadword, and the TLPs so far
with the first two quadwords of each. -/
structure Monitor where
  header : Option (BitVec 64) := none
  tlps : List (BitVec 64 × BitVec 64) := []

namespace Monitor

/-- Watch a quadword: a start of frame is a header, and the next one is its second quadword. -/
def watch (m : Monitor) (b : Beat) : Monitor :=
  if b.tsofN = false then { m with header := some b.td }
  else
    match m.header with
    | some h => { header := none, tlps := m.tlps ++ [(h, b.td)] }
    | none => m

/-- Watch quadwords one after the other. -/
def watchAll (m : Monitor) (l : List Beat) : Monitor := l.foldl watch m

/-- The ranges of the TLPs of a kind. -/
def pieces (m : Monitor) (k : Kind) : List Piece :=
  (m.tlps.filter fun t => t.1.extractLsb' 56 7 = k.fmtType).map fun t => tlpPiece t.1 t.2

theorem watch_body {m : Monitor} (hm : m.header = none) {b : Beat} (h : b.tsofN = true) :
    m.watch b = m := by
  rw [watch, if_neg (by simp [h]), hm]

end Monitor

/-! ### The transmitter as a server -/

/-- The copy of the request that the arbiter latched. -/
def TxWrapper.copy (s : TxWrapper) : Kind → MemReq
  | .read => s.arb.mrd64ReqC
  | .write => s.arb.mwr64C

def TxWrapper.ack (s : TxWrapper) : Kind → Bool
  | .read => s.mrd64ReqStartAck
  | .write => s.mwr64StartAck

def TxWrapper.finish (s : TxWrapper) : Kind → Bool
  | .read => s.sm.mrd64ReqFinish
  | .write => s.sm.mwr64Finish

@[simp] theorem TxWrapper.finish_read (s : TxWrapper) : s.finish .read = s.sm.mrd64ReqFinish := rfl

@[simp] theorem TxWrapper.finish_write (s : TxWrapper) : s.finish .write = s.sm.mwr64Finish := rfl

/-- What is asked for at the input. -/
def TxIn.offer (i : TxIn) : Kind → Option Piece
  | .read => if i.mrd64ReqStart then some i.mrd64Req.piece else none
  | .write => if i.mwr64Start then some i.mwr64.piece else none

namespace TxWrapper

/-- The transmitter, as far as one kind of request is concerned. -/
def server (s : TxWrapper) (k : Kind) : Server Piece :=
  match s.sm.pcieTxState with
  | .rst => if s.arb.txSelFlag = k.sel then .latched (s.copy k).piece else .other
  | .mrd64ReqQw1 => if k = .read then .started (s.copy k).piece (s.ack k) else .other
  | .mwr64Qw1 => if k = .write then .started (s.copy k).piece (s.ack k) else .other
  | .mrd64ReqQwLast => if k = .read then .finishing else .other
  | .mwr64Qwn | .mwr64QwLast => if k = .write then .finishing else .other
  | .cpldQw1 | .cpldQwLast => .other

/-- What the registers say about each other. -/
structure Framed (s : TxWrapper) : Prop where
  /-- Nothing is offered at rest. -/
  rest : s.sm.pcieTxState = .rst → s.sm.trnTsrcRdyN = true
  /-- Something is, outside of the payload. -/
  busy : s.sm.pcieTxState ≠ .rst → s.sm.pcieTxState ≠ .mwr64Qwn → s.sm.trnTsrcRdyN = false
  /-- The payload has no start of frame. -/
  body : s.sm.pcieTxState = .mwr64Qwn → s.sm.trnTsofN = true
  /-- The signals are those of the servers. -/
  ack : ∀ k, s.ack k = (s.server k).ack
  finish : ∀ k, s.finish k = (s.server k).finished

variable {s : TxWrapper} {i : TxIn}

/-- At rest, a server is idle or has latched what was asked for. -/
theorem server_of_rst (hrst : (s.next i).sm.pcieTxState = .rst) (k : Kind) :
    (s.next i).server k = .other ∨
      ∃ r, (s.next i).server k = .latched r ∧ i.offer k = some r := by
  obtain ⟨hchoose, -⟩ := choose_of_rst (s := s) (i := i) hrst
  have harb : (s.next i).arb = s.arb.choose i := hchoose
  by_cases hsel : (s.next i).arb.txSelFlag = k.sel
  · right
    cases k with
    | read =>
      obtain ⟨hstart, hlatched⟩ := Arbiter.choose_doTxMrd64Req (harb ▸ hsel)
      refine ⟨i.mrd64Req.piece, ?_, if_pos hstart⟩
      rw [server, hrst]
      simp only [copy]
      rw [if_pos hsel, harb, hlatched]
    | write =>
      obtain ⟨hstart, hlatched⟩ := Arbiter.choose_doTxMwr64 (harb ▸ hsel)
      refine ⟨i.mwr64.piece, ?_, if_pos hstart⟩
      rw [server, hrst]
      simp only [copy]
      rw [if_pos hsel, harb, hlatched]
  · left
    rw [server, hrst]
    exact if_neg hsel

/-- The signals at rest, whatever the arbiter chose. -/
theorem Framed.finish_of_rst (hs : Framed s) (hrst : s.sm.pcieTxState = .rst) (k : Kind) :
    s.finish k = true := by
  rw [hs.finish, server, hrst]
  by_cases hsel : s.arb.txSelFlag = k.sel <;> simp [hsel, Server.finished]

theorem ack_next (k : Kind) : (s.next i).ack k = s.startAck k.sel := by
  cases k <;> rfl

theorem startAck_of_ne {sel : TxSel} (hrst : s.sm.pcieTxState ≠ .rst) : s.startAck sel = false := by
  rw [startAck]
  simp [hrst]

/-- The machine rests. -/
theorem Framed.next_rst (hs : Framed s) (hrst : s.sm.pcieTxState = .rst) : Framed (s.next i) := by
  have hrest := hs.rest hrst
  have hread := hs.finish_of_rst hrst .read
  have hwrite := hs.finish_of_rst hrst .write
  have hsm : (s.next i).sm = s.mainRst i := by
    show s.mainSm i = _
    rw [mainSm, hrst]
  cases hsel : s.arb.txSelFlag with
  | doNothing =>
    have hrst' : (s.next i).sm.pcieTxState = .rst := by rw [hsm, mainRst, hsel]
    refine ⟨?_, ?_, ?_, fun k => ?_, fun k => ?_⟩
    · rw [hsm, mainRst, hsel]
      exact fun _ => rfl
    · exact fun h => absurd hrst' h
    · rw [hrst']
      intro h
      cases h
    · rw [ack_next, startAck, hsel]
      rcases server_of_rst hrst' k with h | ⟨r, h, -⟩
      · rw [h]
        cases k <;> simp [Kind.sel, Server.ack]
      · rw [h]
        cases k <;> simp [Kind.sel, Server.ack]
    · have hfinish : (s.next i).finish k = s.finish k := by
        cases k <;> simp [hsm, mainRst, hsel]
      rw [hfinish, hs.finish_of_rst hrst]
      rcases server_of_rst hrst' k with h | ⟨r, h, -⟩ <;> rw [h] <;> rfl
  | _ =>
    refine ⟨?_, ?_, ?_, fun k => ?_, fun k => ?_⟩
    · simp [hsm, mainRst, hsel]
    · simp [hsm, mainRst, hsel]
    · simp [hsm, mainRst, hsel]
    · rw [ack_next, startAck, hrst, hsel]
      cases k <;> simp [server, hsm, mainRst, hsel, Kind.sel, Server.ack, ack_next, startAck, hrst]
    · cases k <;> simp [server, hsm, mainRst, hsel, Server.finished] <;> assumption

/-- The machine leaves a TLP. -/
theorem Framed.next_last (hrst : (s.next i).sm.pcieTxState = .rst)
    (hstate : s.sm.pcieTxState ≠ .rst) (hsrc : (s.next i).sm.trnTsrcRdyN = true)
    (hfinish : ∀ k, (s.next i).finish k = true) : Framed (s.next i) := by
  refine ⟨fun _ => hsrc, fun h => absurd hrst h, ?_, fun k => ?_, fun k => ?_⟩
  · rw [hrst]
    intro h
    cases h
  · rw [ack_next, startAck_of_ne hstate]
    rcases server_of_rst hrst k with h | ⟨r, h, -⟩ <;> rw [h] <;> rfl
  · rw [hfinish]
    rcases server_of_rst hrst k with h | ⟨r, h, -⟩ <;> rw [h] <;> rfl

/-- The machine is in a TLP, but not at its payload. -/
theorem Framed.next_busy (hs : Framed s) (hrst : s.sm.pcieTxState ≠ .rst)
    (hqwn : s.sm.pcieTxState ≠ .mwr64Qwn) : Framed (s.next i) := by
  have hack : ∀ k, (s.next i).ack k = false := by
    intro k
    rw [ack_next, startAck_of_ne hrst]
  have hoffers := hs.busy hrst hqwn
  have hread := hs.finish .read
  have hwrite := hs.finish .write
  cases hready : i.trnTdstRdyN with
  | true =>
    have hsm : (s.next i).sm = s.sm := s.mainSm_stall i hready hrst hqwn
    refine ⟨?_, ?_, ?_, fun k => ?_, fun k => ?_⟩
    · rw [hsm]
      exact hs.rest
    · rw [hsm]
      exact hs.busy
    · rw [hsm]
      exact hs.body
    · have hack' := hack k
      rw [hack, server, hsm]
      cases hstate : s.sm.pcieTxState with
      | rst => exact absurd hstate hrst
      | _ => cases k <;> simp [Server.ack, hack']
    · have hfinish : (s.next i).finish k = s.finish k := by cases k <;> simp [hsm]
      rw [hfinish, hs.finish, server, server, hsm]
      cases hstate : s.sm.pcieTxState with
      | rst => exact absurd hstate hrst
      | _ => cases k <;> simp [Server.finished]
  | false =>
    have hsm : (s.next i).sm = s.mainSm i := rfl
    cases hstate : s.sm.pcieTxState with
    | rst => exact absurd hstate hrst
    | mwr64Qwn => exact absurd hstate hqwn
    | cpldQwLast | mrd64ReqQwLast | mwr64QwLast =>
      rw [server, hstate] at hread hwrite
      refine Framed.next_last ?_ hrst ?_ fun k => ?_
      · simp [hsm, mainSm, hstate, hready]
      · simp [hsm, mainSm, hstate, hready]
      · cases k <;> simp_all [mainSm, Server.finished]
    | cpldQw1 | mrd64ReqQw1 | mwr64Qw1 =>
      rw [server, hstate] at hread hwrite
      refine ⟨?_, ?_, ?_, fun k => ?_, fun k => ?_⟩
      · simp [hsm, mainSm, hstate, hready]
      · simp [hsm, mainSm, hstate, hready]
      · simp [hsm, mainSm, hstate, hready]
      · rw [hack, server, hsm, mainSm, hstate]
        cases k <;> simp [hready, Server.ack]
      · rw [server, hsm, mainSm, hstate]
        cases k <;> simp_all [mainSm, Server.finished]

/-- The machine is at the payload. -/
theorem Framed.next_qwn (hs : Framed s) (hqwn : s.sm.pcieTxState = .mwr64Qwn) :
    Framed (s.next i) := by
  have hbody := hs.body hqwn
  have hread := hs.finish .read
  have hwrite := hs.finish .write
  rw [server, hqwn] at hread hwrite
  have hack : ∀ k, (s.next i).ack k = false := by
    intro k
    rw [ack_next, startAck_of_ne (by rw [hqwn]; decide)]
  have hsm : (s.next i).sm = s.mainQwn i := by
    show s.mainSm i = _
    rw [mainSm, hqwn]
  -- the machine stays at the payload or goes to its last quadword
  have hstate : (s.next i).sm.pcieTxState = .mwr64Qwn ∨
      (s.next i).sm.pcieTxState = .mwr64QwLast ∧ (s.next i).sm.trnTsrcRdyN = false := by
    rw [hsm, mainQwn]
    split
    · split
      · by_cases hlast : s.sm.mwr64LenRem = 2
        · exact .inr ⟨if_pos hlast, rfl⟩
        · exact .inl (if_neg hlast)
      · exact .inl hqwn
    · exact .inl hqwn
  have hsof : (s.next i).sm.trnTsofN = true := by
    rw [hsm, mainQwn]
    split
    · split <;> exact hbody
    · exact hbody
  have hfinish : ∀ k, (s.next i).finish k = s.finish k := by
    intro k
    rw [mainQwn] at hsm
    cases k <;> simp only [finish_read, finish_write, hsm] <;> split
    all_goals first
      | rfl
      | split <;> rfl
  refine ⟨fun h => ?_, fun _ h => ?_, fun _ => hsof, fun k => ?_, fun k => ?_⟩
  · rcases hstate with h' | ⟨h', -⟩ <;> rw [h] at h' <;> cases h'
  · rcases hstate with h' | ⟨-, h'⟩
    · exact absurd h' h
    · exact h'
  · rw [hack, server]
    rcases hstate with h | ⟨h, -⟩ <;> rw [h] <;> cases k <;> rfl
  · rw [hfinish, server]
    rcases hstate with h | ⟨h, -⟩ <;> rw [h] <;> cases k <;> simp_all [Server.finished]

theorem Framed.next (hs : Framed s) : Framed (s.next i) := by
  by_cases hrst : s.sm.pcieTxState = .rst
  · exact hs.next_rst hrst
  · by_cases hqwn : s.sm.pcieTxState = .mwr64Qwn
    · exact hs.next_qwn hqwn
    · exact hs.next_busy hrst hqwn

/-! ### The monitor -/

theorem copy_of_arb {s t : TxWrapper} (h : s.arb = t.arb) (k : Kind) : s.copy k = t.copy k := by
  cases k <;> simp [copy, h]

/-- What the transmitter puts on the interface at the end of a clock: nothing while the endpoint
keeps it waiting. -/
def put (s : TxWrapper) (i : TxIn) : List Beat :=
  if i.trnTdstRdyN = true ∧ s.sm.trnTsrcRdyN = false then [] else (s.next i).offered

theorem offered_of_sm {s t : TxWrapper} (h : s.sm = t.sm) : s.offered = t.offered := by
  rw [offered, offered, h]

/-- What was taken and what is offered only ever grows. -/
theorem append_put (hs : Framed s) (l : List Beat) :
    l ++ (if i.trnTdstRdyN then [] else s.offered) ++ (s.next i).offered =
      l ++ s.offered ++ s.put i := by
  rw [put]
  cases hready : i.trnTdstRdyN with
  | false => simp
  | true =>
    cases hsrc : s.sm.trnTsrcRdyN with
    | true =>
      have hnone : s.offered = [] := by
        rw [offered, hsrc]
        rfl
      simp [hnone]
    | false =>
      have hrst : s.sm.pcieTxState ≠ .rst := by
        intro hrst
        rw [hs.rest hrst] at hsrc
        cases hsrc
      have hsame : (s.next i).offered = s.offered := by
        by_cases hqwn : s.sm.pcieTxState = .mwr64Qwn
        · have hsm : (s.next i).sm = s.mainQwn i := by
            show s.mainSm i = _
            rw [mainSm, hqwn]
          simp [offered, hsm, mainQwn, hready, hsrc]
        · exact offered_of_sm (s.mainSm_stall i hready hrst hqwn)
      simp [hsame]

/-- The monitor waits for a second quadword while the machine offers a header. -/
structure Watched (s : TxWrapper) (m : Monitor) : Prop where
  cpld : s.sm.pcieTxState = .cpldQw1 →
    ∃ h, m.header = some h ∧ h.extractLsb' 56 7 = pcieCpldFmtType
  read : s.sm.pcieTxState = .mrd64ReqQw1 →
    ∃ id, m.header = some (mrd64Header s.arb.mrd64ReqC id)
  write : s.sm.pcieTxState = .mwr64Qw1 → ∃ id, m.header = some (mwr64Header s.arb.mwr64C id)
  other : s.sm.pcieTxState ≠ .cpldQw1 → s.sm.pcieTxState ≠ .mrd64ReqQw1 →
    s.sm.pcieTxState ≠ .mwr64Qw1 → m.header = none

/-- A clock is a step of both servers, and the monitor sees what they serve. -/
def Serves (s : TxWrapper) (i : TxIn) (m : Monitor) : Prop :=
  Watched (s.next i) (m.watchAll (s.put i)) ∧ ∀ k, ∃ out,
    Server.Step (i.offer k) (s.server k) ((s.next i).server k) out ∧
      (m.watchAll (s.put i)).pieces k = m.pieces k ++ out

variable {m : Monitor}

/-- The machine rests or comes to rest. -/
theorem serves_of_rst (hstate : s.sm.pcieTxState ≠ .cpldQw1)
    (hstate' : s.sm.pcieTxState ≠ .mrd64ReqQw1) (hstate'' : s.sm.pcieTxState ≠ .mwr64Qw1)
    (hm : Watched s m) (hrst : (s.next i).sm.pcieTxState = .rst) (hput : s.put i = [])
    (hserver : ∀ k, s.server k = .other ∨ s.server k = .finishing) : Serves s i m := by
  have hnone := hm.other hstate hstate' hstate''
  rw [Serves, hput]
  refine ⟨⟨?_, ?_, ?_, fun _ _ _ => hnone⟩, fun k => ⟨[], ?_, (List.append_nil _).symm⟩⟩
  · rw [hrst]
    intro h
    cases h
  · rw [hrst]
    intro h
    cases h
  · rw [hrst]
    intro h
    cases h
  · rcases hserver k with h | h <;> rcases server_of_rst hrst k with h' | ⟨r, h', hr⟩ <;>
      rw [h, h']
    · exact .rest
    · exact .latch hr
    · exact .finish
    · exact .finishLatch hr

/-- The machine starts a TLP, or rests on. -/
theorem Watched.next_rst (hs : Framed s) (hm : Watched s m) (hrst : s.sm.pcieTxState = .rst) :
    Serves s i m := by
  have hrest := hs.rest hrst
  have hnone := hm.other (by rw [hrst]; decide) (by rw [hrst]; decide) (by rw [hrst]; decide)
  have hsm : (s.next i).sm = s.mainRst i := by
    show s.mainSm i = _
    rw [mainSm, hrst]
  have hput : s.put i = (s.next i).offered := by
    rw [put, hrest]
    simp
  cases hsel : s.arb.txSelFlag with
  | doNothing =>
    refine serves_of_rst ?_ ?_ ?_ hm ?_ ?_ fun k => ?_
    · rw [hrst]; decide
    · rw [hrst]; decide
    · rw [hrst]; decide
    · rw [hsm, mainRst, hsel]
    · rw [hput, offered, hsm, mainRst, hsel]
      rfl
    · rw [server, hrst]
      cases k <;> simp [hsel, Kind.sel]
  | _ =>
    have harb : (s.next i).arb = s.arb := by
      show s.arbitrator i = s.arb
      rw [arbitrator, hrst, hsel]
      rfl
    refine ⟨⟨?_, ?_, ?_, ?_⟩, fun k => ?_⟩
    · rw [hput]
      simp [hsm, mainRst, hsel, offered, Monitor.watchAll, Monitor.watch, cpldHeader_fmt]
    · rw [hput]
      simp [hsm, mainRst, hsel, offered, Monitor.watchAll, Monitor.watch, harb]
    · rw [hput]
      simp [hsm, mainRst, hsel, offered, Monitor.watchAll, Monitor.watch, harb]
    · rw [hput]
      simp [hsm, mainRst, hsel]
    · have hpieces : (m.watchAll (s.put i)).pieces k = m.pieces k := by
        rw [hput]
        simp [hsm, mainRst, hsel, offered, Monitor.watchAll, Monitor.watch, Monitor.pieces]
      refine ⟨[], ?_, by rw [hpieces, List.append_nil]⟩
      have hack := ack_next (s := s) (i := i) k
      rw [startAck, hrst, hsel] at hack
      have hcopy : (s.next i).copy k = s.copy k := copy_of_arb harb k
      rw [server, server, hrst, hsel, hsm, mainRst, hsel]
      cases k <;> simp [Kind.sel, hack, hcopy] <;> first | exact .rest | exact .start

/-- The endpoint keeps a header or the last quadword waiting. -/
theorem Watched.next_stall (hs : Framed s) (hm : Watched s m) (hstall : i.trnTdstRdyN = true)
    (hrst : s.sm.pcieTxState ≠ .rst) (hqwn : s.sm.pcieTxState ≠ .mwr64Qwn) : Serves s i m := by
  have hsm : (s.next i).sm = s.sm := s.mainSm_stall i hstall hrst hqwn
  have hput : s.put i = [] := if_pos ⟨hstall, hs.busy hrst hqwn⟩
  have hack : ∀ k, (s.next i).ack k = false := by
    intro k
    rw [ack_next, startAck_of_ne hrst]
  rw [Serves, hput]
  refine ⟨⟨?_, ?_, ?_, ?_⟩, fun k => ⟨[], ?_, (List.append_nil _).symm⟩⟩
  · rw [hsm]
    exact hm.cpld
  · rw [hsm]
    intro hstate
    have harb : (s.next i).arb = s.arb := by
      show s.arbitrator i = s.arb
      rw [arbitrator, hstate]
    rw [harb]
    exact hm.read hstate
  · rw [hsm]
    intro hstate
    have harb : (s.next i).arb = s.arb := by
      show s.arbitrator i = s.arb
      rw [arbitrator, hstate]
    rw [harb]
    exact hm.write hstate
  · rw [hsm]
    exact hm.other
  · have hcopy : s.sm.pcieTxState = .mrd64ReqQw1 ∨ s.sm.pcieTxState = .mwr64Qw1 →
        (s.next i).copy k = s.copy k := by
      intro hstate
      refine copy_of_arb ?_ k
      show s.arbitrator i = s.arb
      rw [arbitrator]
      rcases hstate with h | h <;> rw [h]
    have hack' := hack k
    rw [server, server, hsm]
    cases hstate : s.sm.pcieTxState with
    | rst => exact absurd hstate hrst
    | mrd64ReqQw1 =>
      cases k <;> simp [hack', hcopy (.inl hstate)] <;> first | exact .rest | exact .hold
    | mwr64Qw1 =>
      cases k <;> simp [hack', hcopy (.inr hstate)] <;> first | exact .rest | exact .hold
    | _ => cases k <;> first | exact .rest | exact .finishing

/-- The second quadword of a TLP. -/
theorem pieces_second (m : Monitor) (k : Kind) (hd addr : BitVec 64) :
    Monitor.pieces { header := none, tlps := m.tlps ++ [(hd, addr)] } k =
      m.pieces k ++ if hd.extractLsb' 56 7 = k.fmtType then [tlpPiece hd addr] else [] := by
  by_cases h : hd.extractLsb' 56 7 = k.fmtType <;> simp [Monitor.pieces, h]

/-- The endpoint takes a header: the TLP is on the interface. -/
theorem Watched.next_second (hm : Watched s m) (hready : i.trnTdstRdyN = false)
    (hstate : s.sm.pcieTxState = .cpldQw1 ∨ s.sm.pcieTxState = .mrd64ReqQw1 ∨
      s.sm.pcieTxState = .mwr64Qw1) : Serves s i m := by
  have hsm : (s.next i).sm = s.mainSm i := rfl
  have hput : s.put i = (s.next i).offered := if_neg (by simp [hready])
  rcases hstate with h | h | h
  · obtain ⟨hd, hheader, hfmt⟩ := hm.cpld h
    have hwatch : m.watchAll (s.put i) =
        { header := none, tlps := m.tlps ++ [(hd, cpldLast i.mrd32Req s.arb.mrd32ReqDataC)] } := by
      rw [hput, offered, hsm, mainSm, h]
      simp [hready, Monitor.watchAll, Monitor.watch, hheader]
    rw [Serves, hwatch]
    refine ⟨⟨?_, ?_, ?_, fun _ _ _ => rfl⟩, fun k => ⟨[], ?_, ?_⟩⟩
    · simp [hsm, mainSm, h, hready]
    · simp [hsm, mainSm, h, hready]
    · simp [hsm, mainSm, h, hready]
    · simp [server, hsm, mainSm, h, hready]
      exact .rest
    · rw [pieces_second, hfmt]
      cases k <;> simp [Kind.fmtType, pcieCpldFmtType, pcieMrd64FmtType, pcieMwr64FmtType]
  · obtain ⟨id, hheader⟩ := hm.read h
    have hwatch : m.watchAll (s.put i) =
        { header := none
          tlps := m.tlps ++ [(mrd64Header s.arb.mrd64ReqC id, addrQw s.arb.mrd64ReqC)] } := by
      rw [hput, offered, hsm, mainSm, h]
      simp [hready, Monitor.watchAll, Monitor.watch, hheader]
    rw [Serves, hwatch]
    refine ⟨⟨?_, ?_, ?_, fun _ _ _ => rfl⟩, fun k => ?_⟩
    · simp [hsm, mainSm, h, hready]
    · simp [hsm, mainSm, h, hready]
    · simp [hsm, mainSm, h, hready]
    · rw [pieces_second, mrd64Header_fmt, server, server, hsm, mainSm, h]
      cases k with
      | read =>
        refine ⟨[s.arb.mrd64ReqC.piece], ?_, ?_⟩
        · simp [hready]
          exact .serve
        · simp [Kind.fmtType, tlpPiece, MemReq.piece, mrd64Header_len]
      | write =>
        refine ⟨[], ?_, ?_⟩
        · simp [hready]
          exact .rest
        · simp [Kind.fmtType, pcieMrd64FmtType, pcieMwr64FmtType]
  · obtain ⟨id, hheader⟩ := hm.write h
    have hwatch : m.watchAll (s.put i) =
        { header := none
          tlps := m.tlps ++ [(mwr64Header s.arb.mwr64C id, addrQw s.arb.mwr64C)] } := by
      rw [hput, offered, hsm, mainSm, h]
      simp [hready, Monitor.watchAll, Monitor.watch, hheader]
    rw [Serves, hwatch]
    refine ⟨⟨?_, ?_, ?_, fun _ _ _ => rfl⟩, fun k => ?_⟩
    · simp [hsm, mainSm, h, hready]
    · simp [hsm, mainSm, h, hready]
    · simp [hsm, mainSm, h, hready]
    · rw [pieces_second, mwr64Header_fmt, server, server, hsm, mainSm, h]
      cases k with
      | write =>
        refine ⟨[s.arb.mwr64C.piece], ?_, ?_⟩
        · simp [hready]
          exact .serve
        · simp [Kind.fmtType, tlpPiece, MemReq.piece, mwr64Header_len]
      | read =>
        refine ⟨[], ?_, ?_⟩
        · simp [hready]
          exact .rest
        · simp [Kind.fmtType, pcieMrd64FmtType, pcieMwr64FmtType]

/-- The endpoint takes the last quadword. -/
theorem Watched.next_last (hm : Watched s m) (hready : i.trnTdstRdyN = false)
    (hstate : s.sm.pcieTxState = .cpldQwLast ∨ s.sm.pcieTxState = .mrd64ReqQwLast ∨
      s.sm.pcieTxState = .mwr64QwLast) : Serves s i m := by
  have hsm : (s.next i).sm = s.mainSm i := rfl
  have hput : s.put i = (s.next i).offered := if_neg (by simp [hready])
  rcases hstate with h | h | h
  all_goals
    refine serves_of_rst ?_ ?_ ?_ hm ?_ ?_ fun k => ?_
    · rw [h]; decide
    · rw [h]; decide
    · rw [h]; decide
    · simp [hsm, mainSm, h, hready]
    · rw [hput, offered]
      simp [hsm, mainSm, h, hready]
    · rw [server, h]
      cases k <;> simp

/-- The payload is no header. -/
theorem Watched.watchAll_qwn (hs : Framed s) (hm : Watched s m)
    (hqwn : s.sm.pcieTxState = .mwr64Qwn) : m.watchAll (s.put i) = m := by
  have hnone := hm.other (by rw [hqwn]; decide) (by rw [hqwn]; decide) (by rw [hqwn]; decide)
  have hbody := hs.body hqwn
  have hsof : (s.next i).sm.trnTsofN = true := by
    show (s.mainSm i).trnTsofN = true
    rw [mainSm, hqwn]
    simp only [mainQwn]
    split
    · split <;> exact hbody
    · exact hbody
  rw [put]
  split
  · rfl
  · rw [offered]
    split
    · rfl
    · exact Monitor.watch_body hnone hsof

/-- The machine stays at the payload, or goes to its last quadword. -/
theorem Watched.next_qwn (hs : Framed s) (hm : Watched s m) (hqwn : s.sm.pcieTxState = .mwr64Qwn) :
    Serves s i m := by
  have hnone := hm.other (by rw [hqwn]; decide) (by rw [hqwn]; decide) (by rw [hqwn]; decide)
  have hwatch := hm.watchAll_qwn (i := i) hs hqwn
  have hsm : (s.next i).sm = s.mainQwn i := by
    show s.mainSm i = _
    rw [mainSm, hqwn]
  have hstate : (s.next i).sm.pcieTxState = .mwr64Qwn ∨
      (s.next i).sm.pcieTxState = .mwr64QwLast := by
    rw [hsm, mainQwn]
    split
    · split
      · by_cases hlast : s.sm.mwr64LenRem = 2
        · exact .inr (if_pos hlast)
        · exact .inl (if_neg hlast)
      · exact .inl hqwn
    · exact .inl hqwn
  rw [Serves, hwatch]
  refine ⟨⟨?_, ?_, ?_, fun _ _ _ => hnone⟩, fun k => ⟨[], ?_, (List.append_nil _).symm⟩⟩
  · rcases hstate with h | h <;> rw [h] <;> rintro ⟨⟩
  · rcases hstate with h | h <;> rw [h] <;> rintro ⟨⟩
  · rcases hstate with h | h <;> rw [h] <;> rintro ⟨⟩
  · rw [server, server, hqwn]
    rcases hstate with h | h <;> rw [h] <;> cases k <;> first | exact .rest | exact .finishing

/-- **Both servers.** In every clock each server takes a step, and what is served is on the
interface. -/
theorem Watched.next (hs : Framed s) (hm : Watched s m) : Serves s i m := by
  by_cases hrst : s.sm.pcieTxState = .rst
  · exact hm.next_rst hs hrst
  · by_cases hqwn : s.sm.pcieTxState = .mwr64Qwn
    · exact hm.next_qwn hs hqwn
    · cases hready : i.trnTdstRdyN with
      | true => exact hm.next_stall hs hready hrst hqwn
      | false =>
        cases hstate : s.sm.pcieTxState with
        | rst => exact absurd hstate hrst
        | mwr64Qwn => exact absurd hstate hqwn
        | cpldQw1 => exact hm.next_second hready (.inl hstate)
        | mrd64ReqQw1 => exact hm.next_second hready (.inr (.inl hstate))
        | mwr64Qw1 => exact hm.next_second hready (.inr (.inr hstate))
        | cpldQwLast => exact hm.next_last hready (.inl hstate)
        | mrd64ReqQwLast => exact hm.next_last hready (.inr (.inl hstate))
        | mwr64QwLast => exact hm.next_last hready (.inr (.inr hstate))

/-- While the endpoint stalls, a service does not end. -/
theorem finishing_stall {k : Kind} (hstall : i.trnTdstRdyN = true)
    (hserver : s.server k = .finishing) : (s.next i).server k = .finishing := by
  have hready : ¬ i.trnTdstRdyN = false := by simp [hstall]
  have hsm : (s.next i).sm = s.mainSm i := rfl
  rw [server] at hserver
  cases hstate : s.sm.pcieTxState with
  | mwr64Qwn =>
    rw [server, hsm, mainSm, hstate]
    simp only [mainQwn, if_neg hready, hstate]
    simpa [hstate] using hserver
  | mwr64QwLast | mrd64ReqQwLast =>
    rw [server, hsm, mainSm, hstate]
    simp only [if_neg hready, hstate]
    simpa [hstate] using hserver
  | rst =>
    rw [hstate] at hserver
    simp only at hserver
    split at hserver <;> cases hserver
  | _ =>
    rw [hstate] at hserver
    simp only at hserver
    first
      | cases hserver
      | split at hserver <;> cases hserver

/-- The last quadword of a read request is preceded by its header. -/
theorem readLast_next (hlast : (s.next i).sm.pcieTxState = .mrd64ReqQwLast) :
    (s.sm.pcieTxState = .mrd64ReqQw1 ∧ i.trnTdstRdyN = false) ∨
      s.sm.pcieTxState = .mrd64ReqQwLast ∧ i.trnTdstRdyN = true := by
  have hsm : (s.next i).sm = s.mainSm i := rfl
  rw [hsm, mainSm] at hlast
  cases hstate : s.sm.pcieTxState with
  | rst =>
    rw [hstate, mainRst] at hlast
    cases hsel : s.arb.txSelFlag <;> simp [hsel] at hlast
  | mwr64Qwn =>
    rw [hstate, mainQwn] at hlast
    simp only at hlast
    split at hlast
    · split at hlast
      · simp only at hlast
        split at hlast <;> cases hlast
      · simp [hstate] at hlast
    · simp [hstate] at hlast
  | mrd64ReqQw1 =>
    rw [hstate] at hlast
    simp only at hlast
    split at hlast
    · exact .inl ⟨rfl, ‹_›⟩
    · simp [hstate] at hlast
  | mrd64ReqQwLast =>
    rw [hstate] at hlast
    simp only at hlast
    split at hlast
    · simp at hlast
    · rename_i hready
      exact .inr ⟨rfl, eq_true_of_ne_false hready⟩
  | _ =>
    rw [hstate] at hlast
    simp only at hlast
    split at hlast <;> simp [hstate] at hlast

/-- Watching more adds to the pieces. -/
theorem pieces_watch (m : Monitor) (b : Beat) (k : Kind) :
    ∃ rest, m.pieces k ++ rest = (m.watch b).pieces k := by
  rw [Monitor.watch]
  split
  · exact ⟨[], List.append_nil _⟩
  · split
    · rename_i hd _
      exact ⟨_, (pieces_second m k hd b.td).symm⟩
    · exact ⟨[], List.append_nil _⟩

end TxWrapper

end PcieCsr

end LeapPlatforms
