import LeapPlatforms.PcieCsr.DmaCtrl
import LeapPlatforms.PcieCsr.TxServer

/-!
# Cutting a DMA into TLPs

The DMA engine hands its read and write requests over to the transmitter, one after the other. Each
of its two machines is a requester in the sense of the handover whose requests are the pieces that
the DMA is cut into.

## Main definitions

* `Dma`, `Cfg` — what may be asked for, and the sizes that PCIe defines
* `Engine`, `Engine.next`, `engines` — the DMA engine joined to the transmitter
* `Engine.taken`, `Engine.Took` — the TLPs that the endpoint took
* `DmaCtrl.requester` — its machines as requesters
* `Pending`, `Engine.Sound`

## Main results

* `Pending.piece`, `Pending.advance`, `Pending.last`
* `Engine.simulates` — the engine is a handover for either kind of request
* `Engine.Linked.taken` — the endpoint takes the pieces of the DMAs
* `dma_tlps`
-/

namespace LeapPlatforms

namespace PcieCsr

open Handing Tiling

/-! ### The engine -/

/-- A DMA as the ports allow it. -/
structure Dma where
  paddr : BitVec 64
  len : BitVec 32
  /-- It starts at a DWord. -/
  aligned : paddr.toNat % 4 = 0
  positive : 0 < len.toNat
  /-- It is made of quadwords. -/
  quadwords : len.toNat % 8 = 0
  /-- Its addresses do not wrap. -/
  fits : paddr.toNat + len.toNat ≤ 2 ^ 64

/-- The size codes that PCIe defines. -/
def Size : Type := { c : BitVec 3 // c.toNat ≤ 5 }

/-- The configuration of the endpoint. -/
structure Cfg where
  maxRdReqSize : Size
  maxPayloadSize : Size
  extTagEn : Bool

/-- The size for a kind of request. -/
def Cfg.size (cfg : Cfg) : Kind → Size
  | .read => cfg.maxRdReqSize
  | .write => cfg.maxPayloadSize

/-- The greatest length of a piece, in bytes. -/
def Size.bytes (size : Size) : ℕ := (maxLen size.val).toNat

/-- The DMA engine and the transmitter, what the endpoint took, and the DMAs that were started. -/
structure Engine where
  tx : TxWrapper := {}
  dma : DmaCtrl := {}
  accepted : List Beat := []
  h2fDmas : List Dma := []
  f2hDmas : List Dma := []

/-- What surrounds the engine in a clock: the other input signals, and the DMAs that are to be
started. -/
structure EngineIn where
  tx : TxIn
  cpldRecvFinish : Bool
  cpldRecvLen : BitVec 10
  h2f : Option Dma
  f2h : Option Dma

namespace Engine

variable (cfg : Cfg) (s : Engine) (i : EngineIn)

/-- The read that is started: only while the engine is ready. -/
def h2fStart : Option Dma := if s.dma.req.dmaOutH2fReady then i.h2f else none

/-- The write that is started. -/
def f2hStart : Option Dma := if s.dma.f2h.dmaOutF2hReady then i.f2h else none

/-- The input signals of the engine. -/
def dmaIn : DmaIn where
  dmaInH2fEn := (s.h2fStart i).isSome
  dmaInH2fPaddr := ((s.h2fStart i).map Dma.paddr).getD 0
  dmaInH2fLen := ((s.h2fStart i).map Dma.len).getD 0
  dmaInF2hEn := (s.f2hStart i).isSome
  dmaInF2hPaddr := ((s.f2hStart i).map Dma.paddr).getD 0
  dmaInF2hLen := ((s.f2hStart i).map Dma.len).getD 0
  mwr64StartAck := s.tx.mwr64StartAck
  mwr64Finish := s.tx.sm.mwr64Finish
  mrd64ReqStartAck := s.tx.mrd64ReqStartAck
  mrd64ReqFinish := s.tx.sm.mrd64ReqFinish
  cpldRecvFinish := i.cpldRecvFinish
  cpldRecvLen := i.cpldRecvLen
  cfgMaxRdReqSize := cfg.maxRdReqSize.val
  cfgMaxPayloadSize := cfg.maxPayloadSize.val
  cfgExtTagEn := cfg.extTagEn
  hwChnlRst := false

/-- The input signals of the transmitter. -/
def txIn : TxIn :=
  { i.tx with
    mrd64ReqStart := s.dma.req.mrd64ReqStart
    mrd64Req := s.dma.mrd64Req (s.dmaIn cfg i)
    mwr64Start := s.dma.f2h.mwr64Start
    mwr64 := s.dma.mwr64 (s.dmaIn cfg i) }

/-- A rising clock edge. -/
def next : Engine where
  tx := s.tx.next (s.txIn cfg i)
  dma := s.dma.next (s.dmaIn cfg i)
  accepted := s.accepted ++ if i.tx.trnTdstRdyN then [] else s.tx.offered
  h2fDmas := s.h2fDmas ++ (s.h2fStart i).toList
  f2hDmas := s.f2hDmas ++ (s.f2hStart i).toList

/-- The headers that were put on the interface. -/
def monitor : Monitor := Monitor.watchAll {} (s.accepted ++ s.tx.offered)

/-- The headers that the endpoint took. -/
def taken : Monitor := Monitor.watchAll {} s.accepted

/-- The DMAs of a kind. -/
def dmas : Kind → List Dma
  | .read => s.h2fDmas
  | .write => s.f2hDmas

/-- The pieces that they are cut into. -/
def pieces (k : Kind) : List Piece :=
  (s.dmas k).flatMap fun d => cut (cfg.size k).bytes d.paddr.toNat d.len.toNat

/-- The output that allows the next DMA. -/
def ready : Kind → Bool
  | .read => s.dma.req.dmaOutH2fReady
  | .write => s.dma.f2h.dmaOutF2hReady

end Engine

/-- The joined machines, from their reset on, with any signals around them. -/
def engines (cfg : Cfg) : TransitionSystem Engine where
  init s := s = {}
  step s t := ∃ i, t = s.next cfg i

/-! ### What is left of a DMA -/

variable {size : Size}

theorem Size.bytes_pos : 0 < size.bytes := by
  have : ∀ c : BitVec 3, c.toNat ≤ 5 → 0 < (maxLen c).toNat := by decide
  exact this _ size.2

theorem Size.bytes_le : size.bytes ≤ 4096 := by
  have : ∀ c : BitVec 3, (maxLen c).toNat ≤ 4096 := by decide
  exact this _

theorem Size.bytes_mod : size.bytes % 8 = 0 := by
  have : ∀ c : BitVec 3, (maxLen c).toNat % 8 = 0 := by decide
  exact this _

/-- The code of the greatest length is the greatest length. -/
theorem Size.dwords_maxLenCode : 4 * dwords (maxLenCode size.val) = size.bytes := by
  have : ∀ c : BitVec 3, c.toNat ≤ 5 → 4 * dwords (maxLenCode c) = (maxLen c).toNat := by decide
  exact this _ size.2

/-- A rest of a DMA: an address and a length in bytes. -/
structure Pending (addr : BitVec 64) (rem : BitVec 32) : Prop where
  aligned : addr.toNat % 4 = 0
  positive : 0 < rem.toNat
  quadwords : rem.toNat % 8 = 0
  fits : addr.toNat + rem.toNat ≤ 2 ^ 64

namespace Pending

variable {addr : BitVec 64} {rem : BitVec 32}

theorem addrQw_toNat (h : Pending addr rem) {len : BitVec 10} {tag : BitVec 8} :
    (addrQw ⟨len, tag, addr⟩).toNat = addr.toNat := by
  have haligned := h.aligned
  rw [addrQw, BitVec.toNat_append, BitVec.extractLsb'_toNat]
  have hlt := addr.isLt
  simp [Nat.shiftRight_eq_div_pow, Nat.shiftLeft_eq]
  omega

/-- The length of the next request, in bytes. -/
theorem dwords_pieceLen (h : Pending addr rem) :
    4 * dwords (pieceLen size.val rem) = min size.bytes rem.toNat := by
  have hpos := h.positive
  have hquad := h.quadwords
  have hle := size.bytes_le
  rw [pieceLen]
  by_cases hlast : rem < maxLen size.val
  · have hlt : rem.toNat < size.bytes := hlast
    have hlen : (rem.extractLsb' 2 10).toNat = rem.toNat / 4 := by
      rw [BitVec.extractLsb'_toNat, Nat.shiftRight_eq_div_pow]
      omega
    have hne : rem.extractLsb' 2 10 ≠ 0 := by
      intro h0
      rw [h0] at hlen
      have : (0 : ℕ) = rem.toNat / 4 := hlen
      omega
    rw [if_pos hlast, dwords, if_neg hne, hlen]
    omega
  · have hge : ¬ rem.toNat < size.bytes := hlast
    rw [if_neg hlast, Size.dwords_maxLenCode]
    omega

/-- The next request asks for the first piece. -/
theorem piece (h : Pending addr rem) (tag : BitVec 8) :
    (cut size.bytes addr.toNat rem.toNat).head? =
      some (MemReq.piece ⟨pieceLen size.val rem, tag, addr⟩) := by
  have hpiece : MemReq.piece ⟨pieceLen size.val rem, tag, addr⟩ =
      ⟨addr.toNat, min size.bytes rem.toNat⟩ := by
    rw [MemReq.piece, h.addrQw_toNat, h.dwords_pieceLen]
  rw [hpiece]
  by_cases hmore : size.bytes < rem.toNat
  · rw [cut_of_lt size.bytes_pos hmore, min_eq_left hmore.le]
    rfl
  · rw [cut_of_le (Nat.le_of_not_lt hmore), min_eq_right (Nat.le_of_not_lt hmore)]
    rfl

/-- After a piece of the greatest length, the rest is one again. -/
theorem advance (h : Pending addr rem) (hmore : maxLen size.val < rem) :
    Pending (addr + (maxLen size.val).setWidth 64) (rem - maxLen size.val) ∧
      cut size.bytes addr.toNat rem.toNat = ⟨addr.toNat, size.bytes⟩ ::
        cut size.bytes (addr + (maxLen size.val).setWidth 64).toNat
          (rem - maxLen size.val).toNat := by
  have hlt : size.bytes < rem.toNat := hmore
  have hmod := size.bytes_mod
  have hfits := h.fits
  have haddr : (addr + (maxLen size.val).setWidth 64).toNat = addr.toNat + size.bytes := by
    have hwidth : ((maxLen size.val).setWidth 64).toNat = size.bytes := by
      have hle := size.bytes_le
      rw [BitVec.toNat_setWidth]
      exact Nat.mod_eq_of_lt (show size.bytes < 2 ^ 64 by omega)
    rw [BitVec.toNat_add, hwidth]
    exact Nat.mod_eq_of_lt (by omega)
  have hrem : (rem - maxLen size.val).toNat = rem.toNat - size.bytes :=
    BitVec.toNat_sub_of_le (BitVec.le_of_lt hmore)
  refine ⟨⟨?_, ?_, ?_, ?_⟩, ?_⟩
  · rw [haddr]
    have := h.aligned
    omega
  · omega
  · rw [hrem]
    have := h.quadwords
    omega
  · omega
  · rw [haddr, hrem, cut_of_lt size.bytes_pos hlt]

/-- The last piece is all that is left. -/
theorem last (hlast : ¬ maxLen size.val < rem) :
    cut size.bytes addr.toNat rem.toNat = [⟨addr.toNat, rem.toNat⟩] := by
  have hle : ¬ size.bytes < rem.toNat := hlast
  exact cut_of_le (Nat.le_of_not_lt hle)

end Pending

theorem Dma.pending (d : Dma) : Pending d.paddr d.len := ⟨d.aligned, d.positive, d.quadwords, d.fits⟩

/-! ### The requesters -/

/-- The machines of the engine as requesters. -/
def DmaCtrl.requester (s : DmaCtrl) (cfg : Cfg) : Kind → Requester Piece
  | .read =>
    match s.req.h2fReqState with
    | .idle => ⟨.idle, []⟩
    | .dma1 =>
      ⟨.asking, cut cfg.maxRdReqSize.bytes s.req.h2fCurAddr64.toNat s.req.h2fReqLenRem.toNat⟩
    | .dma2 =>
      ⟨.waiting, if s.req.h2fReqFinish then []
        else cut cfg.maxRdReqSize.bytes s.req.h2fCurAddr64.toNat s.req.h2fReqLenRem.toNat⟩
    | .dma3 => ⟨.draining, []⟩
  | .write =>
    match s.f2h.f2hState with
    | .idle => ⟨.idle, []⟩
    | .dma1 =>
      ⟨.asking, cut cfg.maxPayloadSize.bytes s.f2h.f2hCurAddr64.toNat s.f2h.f2hLenRem.toNat⟩
    | .dma2 =>
      ⟨.waiting, if s.f2h.f2hFinish then []
        else cut cfg.maxPayloadSize.bytes s.f2h.f2hCurAddr64.toNat s.f2h.f2hLenRem.toNat⟩

/-- What the registers of the machine that requests a read say about each other. -/
structure H2fReqSm.Sound (s : H2fReqSm) : Prop where
  /-- The engine is ready while the machine is idle. -/
  ready : s.dmaOutH2fReady = decide (s.h2fReqState = .idle)
  /-- A request is shown while there is one. -/
  start : s.mrd64ReqStart =
    decide (s.h2fReqState = .dma1 ∨ s.h2fReqState = .dma2 ∧ s.h2fReqFinish = false)
  /-- The rest is one of a DMA. -/
  pending : s.mrd64ReqStart = true → Pending s.h2fCurAddr64 s.h2fReqLenRem

/-- And those of the machine that requests writes. -/
structure F2hSm.Sound (s : F2hSm) : Prop where
  ready : s.dmaOutF2hReady = decide (s.f2hState = .idle)
  start : s.mwr64Start =
    decide (s.f2hState = .dma1 ∨ s.f2hState = .dma2 ∧ s.f2hFinish = false)
  pending : s.mwr64Start = true → Pending s.f2hCurAddr64 s.f2hLenRem

variable {cfg : Cfg} {s t : Engine} {i : EngineIn}

/-- The transmitter is shown the first piece of what is left. -/
theorem offer_read (h : s.dma.req.Sound) :
    (s.txIn cfg i).offer .read = (s.dma.requester cfg .read).offer := by
  have hstart := h.start
  rw [Requester.offer, DmaCtrl.requester, TxIn.offer]
  show (if s.dma.req.mrd64ReqStart then some (s.dma.mrd64Req (s.dmaIn cfg i)).piece else none) = _
  cases hs : s.dma.req.mrd64ReqStart with
  | false =>
    rw [hs] at hstart
    cases hstate : s.dma.req.h2fReqState <;> simp_all
  | true =>
    have hpiece := @Pending.piece cfg.maxRdReqSize _ _ (h.pending hs)
      (pieceTag cfg.maxRdReqSize.val s.dma.req.h2fReqLenRem cfg.extTagEn)
    rw [hs] at hstart
    cases hstate : s.dma.req.h2fReqState <;> simp_all <;> rfl

theorem offer_write (h : s.dma.f2h.Sound) :
    (s.txIn cfg i).offer .write = (s.dma.requester cfg .write).offer := by
  have hstart := h.start
  rw [Requester.offer, DmaCtrl.requester, TxIn.offer]
  show (if s.dma.f2h.mwr64Start then some (s.dma.mwr64 (s.dmaIn cfg i)).piece else none) = _
  cases hs : s.dma.f2h.mwr64Start with
  | false =>
    rw [hs] at hstart
    cases hstate : s.dma.f2h.f2hState <;> simp_all
  | true =>
    have hpiece := @Pending.piece cfg.maxPayloadSize _ _ (h.pending hs)
      (pieceTag cfg.maxPayloadSize.val s.dma.f2h.f2hLenRem cfg.extTagEn)
    rw [hs] at hstart
    cases hstate : s.dma.f2h.f2hState <;> simp_all <;> rfl

/-- What the DMAs that are started in a clock are cut into. -/
def Engine.newPieces (cfg : Cfg) (s : Engine) (i : EngineIn) : Kind → List Piece
  | .read => (s.h2fStart i).toList.flatMap fun d =>
      cut cfg.maxRdReqSize.bytes d.paddr.toNat d.len.toNat
  | .write => (s.f2hStart i).toList.flatMap fun d =>
      cut cfg.maxPayloadSize.bytes d.paddr.toNat d.len.toNat

/-- A clock of the machine that requests a read, as a step of its requester. -/
def Engine.ReadStep (cfg : Cfg) (s : Engine) (i : EngineIn) : Prop :=
  (s.next cfg i).dma.req.Sound ∧
    Requester.Step (s.tx.ack .read) (s.tx.finish .read) (s.dma.requester cfg .read)
      ((s.next cfg i).dma.requester cfg .read) (s.newPieces cfg i .read)

/-- And of the machine that requests writes. -/
def Engine.WriteStep (cfg : Cfg) (s : Engine) (i : EngineIn) : Prop :=
  (s.next cfg i).dma.f2h.Sound ∧
    Requester.Step (s.tx.ack .write) (s.tx.finish .write) (s.dma.requester cfg .write)
      ((s.next cfg i).dma.requester cfg .write) (s.newPieces cfg i .write)

theorem H2fReqSm.Sound.newPieces (h : s.dma.req.Sound) (hne : s.dma.req.h2fReqState ≠ .idle) :
    s.newPieces cfg i .read = [] := by
  rw [Engine.newPieces, Engine.h2fStart, h.ready, decide_eq_false hne]
  rfl

theorem H2fReqSm.Sound.next_idle (h : s.dma.req.Sound)
    (hstate : s.dma.req.h2fReqState = .idle) : s.ReadStep cfg i := by
  have hready := h.ready
  have hreq : (s.next cfg i).dma.req = s.dma.h2fReqSm (s.dmaIn cfg i) := rfl
  rw [hstate] at hready
  cases hi : i.h2f with
  | none =>
    have hno : s.h2fStart i = none := by rw [Engine.h2fStart, hi, ite_self]
    have hreq' : (s.next cfg i).dma.req = {} := by
      rw [hreq, DmaCtrl.h2fReqSm, hstate]
      simp [Engine.dmaIn, hno]
    refine ⟨?_, ?_⟩
    · rw [hreq']
      exact ⟨rfl, rfl, by rintro ⟨⟩⟩
    · rw [DmaCtrl.requester, DmaCtrl.requester, hreq', hstate, Engine.newPieces, hno]
      exact .rest
  | some d =>
    have hyes : s.h2fStart i = some d := by rw [Engine.h2fStart, hready, hi]; rfl
    have hreq' : (s.next cfg i).dma.req = ⟨false, true, true, d.paddr, d.len, false, .dma1⟩ := by
      rw [hreq, DmaCtrl.h2fReqSm, hstate]
      simp [Engine.dmaIn, hyes]
    refine ⟨?_, ?_⟩
    · rw [hreq']
      exact ⟨rfl, rfl, fun _ => d.pending⟩
    · rw [DmaCtrl.requester, DmaCtrl.requester, hreq', hstate, Engine.newPieces, hyes]
      simp only [Option.toList_some, List.flatMap_cons, List.flatMap_nil, List.append_nil]
      exact .new cut_ne_nil

/-- The acknowledgement takes the machine to the next piece, or past the last. -/
theorem H2fReqSm.Sound.next_dma1 (h : s.dma.req.Sound)
    (hstate : s.dma.req.h2fReqState = .dma1) : s.ReadStep cfg i := by
  have hready := h.ready
  have hstart := h.start
  have hreq : (s.next cfg i).dma.req = s.dma.h2fReqSm (s.dmaIn cfg i) := rfl
  rw [Engine.ReadStep, h.newPieces (by rw [hstate]; decide)]
  rw [hstate] at hstart
  have hpending := h.pending hstart
  cases hack : s.tx.mrd64ReqStartAck with
  | false =>
    have hreq' : (s.next cfg i).dma.req =
        { s.dma.req with mrd64ReqStart := true, h2fReqState := .dma1, h2fRecvStart := false } := by
      rw [hreq, DmaCtrl.h2fReqSm, hstate]
      simp [Engine.dmaIn, hack]
    refine ⟨?_, ?_⟩
    · rw [hreq']
      refine ⟨?_, rfl, fun _ => hpending⟩
      rw [hready, hstate]
    · rw [DmaCtrl.requester, DmaCtrl.requester, hreq', hstate]
      exact .ask hack
  | true =>
    by_cases hmore : maxLen cfg.maxRdReqSize.val < s.dma.req.h2fReqLenRem
    · obtain ⟨hrest, hcut⟩ := hpending.advance hmore
      have hreq' : (s.next cfg i).dma.req =
          { s.dma.req with
            mrd64ReqStart := true, h2fReqFinish := false
            h2fCurAddr64 := s.dma.req.h2fCurAddr64 + (maxLen cfg.maxRdReqSize.val).setWidth 64
            h2fReqLenRem := s.dma.req.h2fReqLenRem - maxLen cfg.maxRdReqSize.val
            h2fReqState := .dma2, h2fRecvStart := false } := by
        rw [hreq, DmaCtrl.h2fReqSm, hstate]
        simp [Engine.dmaIn, hack, hmore]
      refine ⟨?_, ?_⟩
      · rw [hreq']
        refine ⟨?_, rfl, fun _ => hrest⟩
        show s.dma.req.dmaOutH2fReady = _
        rw [hready, hstate]
        rfl
      · rw [DmaCtrl.requester, DmaCtrl.requester, hreq', hstate]
        simp only [hcut]
        exact .acked hack
    · have hreq' : (s.next cfg i).dma.req =
          { s.dma.req with
            mrd64ReqStart := false, h2fReqFinish := true, h2fReqState := .dma2
            h2fRecvStart := false } := by
        rw [hreq, DmaCtrl.h2fReqSm, hstate]
        simp [Engine.dmaIn, hack, hmore]
      refine ⟨?_, ?_⟩
      · rw [hreq']
        refine ⟨?_, rfl, by rintro ⟨⟩⟩
        show s.dma.req.dmaOutH2fReady = _
        rw [hready, hstate]
        rfl
      · rw [DmaCtrl.requester, DmaCtrl.requester, hreq', hstate]
        simp only [Pending.last hmore]
        exact .acked hack

theorem H2fReqSm.Sound.next_dma2 (h : s.dma.req.Sound)
    (hstate : s.dma.req.h2fReqState = .dma2) : s.ReadStep cfg i := by
  have hready := h.ready
  have hstart := h.start
  have hreq : (s.next cfg i).dma.req = s.dma.h2fReqSm (s.dmaIn cfg i) := rfl
  rw [Engine.ReadStep, h.newPieces (by rw [hstate]; decide)]
  cases hfinish : s.tx.sm.mrd64ReqFinish with
  | false =>
    have hreq' : (s.next cfg i).dma.req = s.dma.req := by
      rw [hreq, DmaCtrl.h2fReqSm, hstate]
      simp [Engine.dmaIn, hfinish]
    refine ⟨hreq' ▸ h, ?_⟩
    rw [DmaCtrl.requester, DmaCtrl.requester, hreq', hstate]
    exact .wait hfinish
  | true =>
    cases hlast : s.dma.req.h2fReqFinish with
    | true =>
      have hreq' : (s.next cfg i).dma.req = { s.dma.req with h2fReqState := .dma3 } := by
        rw [hreq, DmaCtrl.h2fReqSm, hstate]
        simp [Engine.dmaIn, hfinish, hlast]
      refine ⟨?_, ?_⟩
      · rw [hreq']
        refine ⟨?_, ?_, h.pending⟩
        · show s.dma.req.dmaOutH2fReady = _
          rw [hready, hstate]
          rfl
        · show s.dma.req.mrd64ReqStart = _
          rw [hstart, hstate, hlast]
          rfl
      · rw [DmaCtrl.requester, DmaCtrl.requester, hreq', hstate, hlast]
        exact .drain hfinish
    | false =>
      have hreq' : (s.next cfg i).dma.req = { s.dma.req with h2fReqState := .dma1 } := by
        rw [hreq, DmaCtrl.h2fReqSm, hstate]
        simp [Engine.dmaIn, hfinish, hlast]
      refine ⟨?_, ?_⟩
      · rw [hreq']
        refine ⟨?_, ?_, h.pending⟩
        · show s.dma.req.dmaOutH2fReady = _
          rw [hready, hstate]
          rfl
        · show s.dma.req.mrd64ReqStart = _
          rw [hstart, hstate, hlast]
          rfl
      · rw [DmaCtrl.requester, DmaCtrl.requester, hreq', hstate, hlast]
        exact .again hfinish cut_ne_nil

theorem H2fReqSm.Sound.next_dma3 (h : s.dma.req.Sound)
    (hstate : s.dma.req.h2fReqState = .dma3) : s.ReadStep cfg i := by
  have hready := h.ready
  have hstart := h.start
  have hreq : (s.next cfg i).dma.req = s.dma.h2fReqSm (s.dmaIn cfg i) := rfl
  rw [Engine.ReadStep, h.newPieces (by rw [hstate]; decide)]
  cases hrecv : s.dma.recv.h2fRecvFinish with
  | false =>
    have hreq' : (s.next cfg i).dma.req = s.dma.req := by
      rw [hreq, DmaCtrl.h2fReqSm, hstate]
      simp [Engine.dmaIn, hrecv]
    refine ⟨hreq' ▸ h, ?_⟩
    rw [DmaCtrl.requester, DmaCtrl.requester, hreq', hstate]
    exact .draining
  | true =>
    have hreq' : (s.next cfg i).dma.req =
        { s.dma.req with dmaOutH2fReady := true, h2fReqState := .idle } := by
      rw [hreq, DmaCtrl.h2fReqSm, hstate]
      simp [Engine.dmaIn, hrecv]
    refine ⟨?_, ?_⟩
    · rw [hreq']
      refine ⟨rfl, ?_, h.pending⟩
      show s.dma.req.mrd64ReqStart = _
      rw [hstart, hstate]
      rfl
    · rw [DmaCtrl.requester, DmaCtrl.requester, hreq', hstate]
      exact .drained

/-- A clock of the machine that requests a read is a step of its requester. -/
theorem H2fReqSm.Sound.next (h : s.dma.req.Sound) : s.ReadStep cfg i := by
  cases hstate : s.dma.req.h2fReqState with
  | idle => exact h.next_idle hstate
  | dma1 => exact h.next_dma1 hstate
  | dma2 => exact h.next_dma2 hstate
  | dma3 => exact h.next_dma3 hstate

theorem F2hSm.Sound.newPieces (h : s.dma.f2h.Sound) (hne : s.dma.f2h.f2hState ≠ .idle) :
    s.newPieces cfg i .write = [] := by
  rw [Engine.newPieces, Engine.f2hStart, h.ready, decide_eq_false hne]
  rfl

theorem F2hSm.Sound.next_idle (h : s.dma.f2h.Sound) (hstate : s.dma.f2h.f2hState = .idle) :
    s.WriteStep cfg i := by
  have hready := h.ready
  have hf2h : (s.next cfg i).dma.f2h = s.dma.f2hSm (s.dmaIn cfg i) := rfl
  rw [hstate] at hready
  cases hi : i.f2h with
  | none =>
    have hno : s.f2hStart i = none := by rw [Engine.f2hStart, hi, ite_self]
    have hf2h' : (s.next cfg i).dma.f2h =
        { s.dma.f2h with
          dmaOutF2hReady := true, mwr64Start := false, f2hCurAddr64 := 0, f2hLenRem := 0
          f2hState := .idle } := by
      rw [hf2h, DmaCtrl.f2hSm, hstate]
      simp [Engine.dmaIn, hno]
    refine ⟨?_, ?_⟩
    · rw [hf2h']
      exact ⟨rfl, rfl, by rintro ⟨⟩⟩
    · rw [DmaCtrl.requester, DmaCtrl.requester, hf2h', hstate, Engine.newPieces, hno]
      exact .rest
  | some d =>
    have hyes : s.f2hStart i = some d := by rw [Engine.f2hStart, hready, hi]; rfl
    have hf2h' : (s.next cfg i).dma.f2h =
        { s.dma.f2h with
          dmaOutF2hReady := false, f2hCurAddr64 := d.paddr, f2hLenRem := d.len
          mwr64Start := true, f2hState := .dma1 } := by
      rw [hf2h, DmaCtrl.f2hSm, hstate]
      simp [Engine.dmaIn, hyes]
    refine ⟨?_, ?_⟩
    · rw [hf2h']
      exact ⟨rfl, rfl, fun _ => d.pending⟩
    · rw [DmaCtrl.requester, DmaCtrl.requester, hf2h', hstate, Engine.newPieces, hyes]
      simp only [Option.toList_some, List.flatMap_cons, List.flatMap_nil, List.append_nil]
      exact .new cut_ne_nil

theorem F2hSm.Sound.next_dma1 (h : s.dma.f2h.Sound) (hstate : s.dma.f2h.f2hState = .dma1) :
    s.WriteStep cfg i := by
  have hready := h.ready
  have hstart := h.start
  have hf2h : (s.next cfg i).dma.f2h = s.dma.f2hSm (s.dmaIn cfg i) := rfl
  rw [Engine.WriteStep, h.newPieces (by rw [hstate]; decide)]
  rw [hstate] at hstart
  have hpending := h.pending hstart
  cases hack : s.tx.mwr64StartAck with
  | false =>
    have hf2h' : (s.next cfg i).dma.f2h =
        { s.dma.f2h with mwr64Start := true, f2hState := .dma1 } := by
      rw [hf2h, DmaCtrl.f2hSm, hstate]
      simp [Engine.dmaIn, hack]
    refine ⟨?_, ?_⟩
    · rw [hf2h']
      refine ⟨?_, rfl, fun _ => hpending⟩
      rw [hready, hstate]
    · rw [DmaCtrl.requester, DmaCtrl.requester, hf2h', hstate]
      exact .ask hack
  | true =>
    by_cases hmore : maxLen cfg.maxPayloadSize.val < s.dma.f2h.f2hLenRem
    · obtain ⟨hrest, hcut⟩ := hpending.advance hmore
      have hf2h' : (s.next cfg i).dma.f2h =
          { s.dma.f2h with
            f2hFinish := false
            f2hCurAddr64 := s.dma.f2h.f2hCurAddr64 + (maxLen cfg.maxPayloadSize.val).setWidth 64
            f2hLenRem := s.dma.f2h.f2hLenRem - maxLen cfg.maxPayloadSize.val
            f2hState := .dma2 } := by
        rw [hf2h, DmaCtrl.f2hSm, hstate]
        simp [Engine.dmaIn, hack, hmore]
      refine ⟨?_, ?_⟩
      · rw [hf2h']
        refine ⟨?_, hstart, fun _ => hrest⟩
        show s.dma.f2h.dmaOutF2hReady = _
        rw [hready, hstate]
        rfl
      · rw [DmaCtrl.requester, DmaCtrl.requester, hf2h', hstate]
        simp only [hcut]
        exact .acked hack
    · have hf2h' : (s.next cfg i).dma.f2h =
          { s.dma.f2h with mwr64Start := false, f2hFinish := true, f2hState := .dma2 } := by
        rw [hf2h, DmaCtrl.f2hSm, hstate]
        simp [Engine.dmaIn, hack, hmore]
      refine ⟨?_, ?_⟩
      · rw [hf2h']
        refine ⟨?_, rfl, by rintro ⟨⟩⟩
        show s.dma.f2h.dmaOutF2hReady = _
        rw [hready, hstate]
        rfl
      · rw [DmaCtrl.requester, DmaCtrl.requester, hf2h', hstate]
        simp only [Pending.last hmore]
        exact .acked hack

theorem F2hSm.Sound.next_dma2 (h : s.dma.f2h.Sound) (hstate : s.dma.f2h.f2hState = .dma2) :
    s.WriteStep cfg i := by
  have hready := h.ready
  have hstart := h.start
  have hf2h : (s.next cfg i).dma.f2h = s.dma.f2hSm (s.dmaIn cfg i) := rfl
  rw [Engine.WriteStep, h.newPieces (by rw [hstate]; decide)]
  cases hfinish : s.tx.sm.mwr64Finish with
  | false =>
    have hf2h' : (s.next cfg i).dma.f2h = s.dma.f2h := by
      rw [hf2h, DmaCtrl.f2hSm, hstate]
      simp [Engine.dmaIn, hfinish]
    refine ⟨hf2h' ▸ h, ?_⟩
    rw [DmaCtrl.requester, DmaCtrl.requester, hf2h', hstate]
    exact .wait hfinish
  | true =>
    cases hlast : s.dma.f2h.f2hFinish with
    | true =>
      have hf2h' : (s.next cfg i).dma.f2h =
          { s.dma.f2h with dmaOutF2hReady := true, f2hState := .idle } := by
        rw [hf2h, DmaCtrl.f2hSm, hstate]
        simp [Engine.dmaIn, hfinish, hlast]
      refine ⟨?_, ?_⟩
      · rw [hf2h']
        refine ⟨rfl, ?_, h.pending⟩
        show s.dma.f2h.mwr64Start = _
        rw [hstart, hstate, hlast]
        rfl
      · rw [DmaCtrl.requester, DmaCtrl.requester, hf2h', hstate, hlast]
        exact .stop hfinish
    | false =>
      have hf2h' : (s.next cfg i).dma.f2h = { s.dma.f2h with f2hState := .dma1 } := by
        rw [hf2h, DmaCtrl.f2hSm, hstate]
        simp [Engine.dmaIn, hfinish, hlast]
      refine ⟨?_, ?_⟩
      · rw [hf2h']
        refine ⟨?_, ?_, h.pending⟩
        · show s.dma.f2h.dmaOutF2hReady = _
          rw [hready, hstate]
          rfl
        · show s.dma.f2h.mwr64Start = _
          rw [hstart, hstate, hlast]
          rfl
      · rw [DmaCtrl.requester, DmaCtrl.requester, hf2h', hstate, hlast]
        exact .again hfinish cut_ne_nil

/-- A clock of the machine that requests writes is a step of its requester. -/
theorem F2hSm.Sound.next (h : s.dma.f2h.Sound) : s.WriteStep cfg i := by
  cases hstate : s.dma.f2h.f2hState with
  | idle => exact h.next_idle hstate
  | dma1 => exact h.next_dma1 hstate
  | dma2 => exact h.next_dma2 hstate

/-! ### Both together -/

/-- What holds of the joined machines in every clock. -/
structure Engine.Sound (s : Engine) : Prop where
  framed : s.tx.Framed
  watched : s.tx.Watched s.monitor
  req : s.dma.req.Sound
  f2h : s.dma.f2h.Sound

/-- What the endpoint took, and what is on the interface. -/
structure Engine.Took (s : Engine) (k : Kind) : Prop where
  /-- A request that is not in its last quadword was taken. -/
  same : s.tx.server k ≠ .finishing → s.taken.pieces k = s.monitor.pieces k
  /-- A read request that is in it was not. -/
  last : s.tx.sm.pcieTxState = .mrd64ReqQwLast → k = .read →
    ∃ p, s.taken.pieces k ++ [p] = s.monitor.pieces k

/-- The engine and a handover of its requests of one kind. -/
structure Engine.Hands (cfg : Cfg) (k : Kind) (s : Engine) (g : Handover Piece) : Prop where
  sound : s.Sound
  took : s.Took k
  server : g.server = s.tx.server k
  requester : g.requester = s.dma.requester cfg k
  asked : g.asked = s.pieces cfg k
  served : g.served = s.monitor.pieces k

theorem Engine.monitor_next (h : s.Sound) :
    (s.next cfg i).monitor = s.monitor.watchAll (s.tx.put (s.txIn cfg i)) := by
  have hput := TxWrapper.append_put (i := s.txIn cfg i) h.framed s.accepted
  rw [Engine.monitor, Engine.monitor, Monitor.watchAll, Monitor.watchAll, Monitor.watchAll,
    ← List.foldl_append, ← hput]
  rfl

theorem Engine.taken_next (hready : i.tx.trnTdstRdyN = false) : (s.next cfg i).taken = s.monitor := by
  rw [Engine.taken, Engine.monitor]
  show Monitor.watchAll {} (s.accepted ++ if i.tx.trnTdstRdyN then [] else s.tx.offered) = _
  rw [hready]
  rfl

theorem Engine.taken_stall (hstall : i.tx.trnTdstRdyN = true) : (s.next cfg i).taken = s.taken := by
  rw [Engine.taken, Engine.taken]
  show Monitor.watchAll {} (s.accepted ++ if i.tx.trnTdstRdyN then [] else s.tx.offered) = _
  rw [hstall]
  exact congrArg _ (List.append_nil _)

theorem Engine.Took.next {k : Kind} (h : s.Took k) (hs : s.Sound) : (s.next cfg i).Took k := by
  obtain ⟨out, hstep, hpieces⟩ :=
    (TxWrapper.Watched.next (i := s.txIn cfg i) hs.framed hs.watched).2 k
  rw [← Engine.monitor_next hs] at hpieces
  have htx : (s.next cfg i).tx = s.tx.next (s.txIn cfg i) := rfl
  cases hready : i.tx.trnTdstRdyN with
  | false =>
    refine ⟨fun hserver => ?_, fun hlast hk => ?_⟩
    · rw [Engine.taken_next hready, hpieces, hstep.out_eq_nil hserver, List.append_nil]
    · subst hk
      rw [htx] at hlast
      rcases TxWrapper.readLast_next hlast with ⟨hqw1, -⟩ | ⟨-, hstall⟩
      · rw [TxWrapper.server, TxWrapper.server, hqw1, hlast] at hstep
        rw [Engine.taken_next hready, hpieces]
        exact ⟨_, by rw [Server.Step.out_of_started hstep]⟩
      · exact absurd (hready.symm.trans hstall) (by decide)
  | true =>
    refine ⟨fun hserver => ?_, fun hlast hk => ?_⟩
    · have hserver' : s.tx.server k ≠ .finishing :=
        fun h' => hserver (TxWrapper.finishing_stall hready h')
      rw [Engine.taken_stall hready, hpieces, hstep.out_eq_nil hserver, List.append_nil]
      exact h.same hserver'
    · subst hk
      rw [htx] at hlast
      rcases TxWrapper.readLast_next hlast with ⟨-, hready'⟩ | ⟨hlast', -⟩
      · exact absurd (hready.symm.trans hready') (by decide)
      · obtain ⟨p, hp⟩ := h.last hlast' rfl
        rw [TxWrapper.server, hlast'] at hstep
        refine ⟨p, ?_⟩
        rw [Engine.taken_stall hready, hpieces, Server.Step.out_of_finishing hstep, List.append_nil]
        exact hp

theorem Engine.took_append (k : Kind) : ∃ rest, s.taken.pieces k ++ rest = s.monitor.pieces k := by
  have hmonitor : s.monitor = s.taken.watchAll s.tx.offered := by
    rw [Engine.monitor, Engine.taken, Monitor.watchAll, List.foldl_append]
    rfl
  rw [hmonitor, TxWrapper.offered]
  split
  · exact ⟨[], List.append_nil _⟩
  · exact TxWrapper.pieces_watch _ _ k

theorem Engine.pieces_next (k : Kind) :
    (s.next cfg i).pieces cfg k = s.pieces cfg k ++ s.newPieces cfg i k := by
  cases k <;> exact List.flatMap_append

theorem Engine.Sound.next (h : s.Sound) : (s.next cfg i).Sound := by
  refine ⟨h.framed.next, ?_, h.req.next.1, h.f2h.next.1⟩
  rw [Engine.monitor_next h]
  exact (TxWrapper.Watched.next h.framed h.watched).1

/-- A clock is a step of the handover. -/
theorem Engine.Hands.next {k : Kind} {g : Handover Piece} (h : s.Hands cfg k g) :
    ∃ g', Handover.Step g g' ∧ (s.next cfg i).Hands cfg k g' := by
  obtain ⟨hsound, htook, hserver, hrequester, hasked, hserved⟩ := h
  obtain ⟨server, requester, asked, served⟩ := g
  subst hserver hrequester hasked hserved
  obtain ⟨out, hstep, hpieces⟩ :=
    (TxWrapper.Watched.next (i := s.txIn cfg i) hsound.framed hsound.watched).2 k
  have hreq : Requester.Step (s.tx.server k).ack (s.tx.server k).finished
      (s.dma.requester cfg k) ((s.next cfg i).dma.requester cfg k) (s.newPieces cfg i k) := by
    rw [← hsound.framed.ack, ← hsound.framed.finish]
    cases k with
    | read => exact hsound.req.next.2
    | write => exact hsound.f2h.next.2
  have hoffer : (s.txIn cfg i).offer k = (s.dma.requester cfg k).offer := by
    cases k with
    | read => exact offer_read hsound.req
    | write => exact offer_write hsound.f2h
  rw [hoffer] at hstep
  refine ⟨_, .mk hstep hreq, hsound.next, htook.next hsound,
    rfl, rfl, (Engine.pieces_next k).symm, ?_⟩
  show s.monitor.pieces k ++ out = _
  rw [Engine.monitor_next hsound, hpieces]

theorem Engine.sound_start : (Engine.mk {} {} [] [] []).Sound := by
  refine ⟨⟨?_, ?_, ?_, fun k => ?_, fun k => ?_⟩, ⟨?_, ?_, ?_, fun _ _ _ => rfl⟩, ?_, ?_⟩
  · exact fun _ => rfl
  · exact fun h => absurd rfl h
  · intro h
    cases h
  · cases k <;> rfl
  · cases k <;> rfl
  · intro h
    cases h
  · intro h
    cases h
  · intro h
    cases h
  · exact ⟨rfl, rfl, by rintro ⟨⟩⟩
  · exact ⟨rfl, rfl, by rintro ⟨⟩⟩

/-- **The engine hands its requests over.** -/
theorem Engine.simulates (cfg : Cfg) (k : Kind) :
    TransitionSystem.Simulates (engines cfg) handovers (Engine.Hands cfg k) := by
  refine ⟨?_, ?_⟩
  · rintro s rfl
    refine ⟨_, rfl, Engine.sound_start, ⟨fun _ => rfl, by rintro ⟨⟩⟩, ?_, ?_, ?_, rfl⟩
    · cases k <;> rfl
    · cases k <;> rfl
    · cases k <;> rfl
  · rintro s t g - hands ⟨i, rfl⟩
    obtain ⟨g', hstep, hands'⟩ := hands.next (i := i)
    exact ⟨g', .single hstep, hands'⟩

/-- The engine and the transmitter agree about the requests of a kind. -/
def Engine.Linked (cfg : Cfg) (k : Kind) (s : Engine) : Prop :=
  ∃ g : Handover Piece, g.Agrees ∧ s.Hands cfg k g

theorem Engine.Linked.next {k : Kind} (h : s.Linked cfg k) : (s.next cfg i).Linked cfg k := by
  obtain ⟨g, hg, hands⟩ := h
  obtain ⟨g', hstep, hands'⟩ := hands.next (i := i)
  exact ⟨g', hg.step hstep, hands'⟩

theorem Engine.Linked.sound {k : Kind} (h : s.Linked cfg k) : s.Sound := by
  obtain ⟨g, -, hands⟩ := h
  exact hands.sound

theorem Engine.linked_of_reachable (h : (engines cfg).Reachable s) (k : Kind) :
    s.Linked cfg k := by
  obtain ⟨g, hg, hands⟩ := (Engine.simulates cfg k).reachable h
  exact ⟨g, Handover.agrees_of_reachable hg, hands⟩

/-- A requester at rest shows nothing. -/
theorem Engine.Sound.requester_of_ready {k : Kind} (h : s.Sound) (hready : s.ready k = true) :
    s.dma.requester cfg k = ⟨.idle, []⟩ := by
  cases k with
  | read =>
    have hstate : s.dma.req.h2fReqState = .idle := of_decide_eq_true (h.req.ready.symm.trans hready)
    rw [DmaCtrl.requester, hstate]
  | write =>
    have hstate : s.dma.f2h.f2hState = .idle := of_decide_eq_true (h.f2h.ready.symm.trans hready)
    rw [DmaCtrl.requester, hstate]

/-- The TLPs that the endpoint took come first, and nothing is missing when the engine is ready. -/
theorem Engine.Linked.taken {k : Kind} (h : s.Linked cfg k) :
    (∃ rest, s.taken.pieces k ++ rest = s.pieces cfg k) ∧
      (s.ready k = true → s.taken.pieces k = s.pieces cfg k) := by
  obtain ⟨g, hg, hands⟩ := h
  refine ⟨?_, fun hready => ?_⟩
  · obtain ⟨rest, hrest⟩ := Handover.served_append hg
    rw [hands.served, hands.asked] at hrest
    obtain ⟨rest', hrest'⟩ := s.took_append k
    exact ⟨rest' ++ rest, by rw [← List.append_assoc, hrest', hrest]⟩
  · have hidle : g.requester = ⟨.idle, []⟩ :=
      hands.requester.trans (hands.sound.requester_of_ready hready)
    obtain ⟨hserver, hall⟩ := hg.of_idle (by rw [hidle]) (by rw [hidle])
    rw [hands.served, hands.asked] at hall
    refine (hands.took.same fun hfinishing => ?_).trans hall
    -- a requester at rest is not being served
    cases hserver.symm.trans (hands.server.trans hfinishing)

/-- The machine that is acknowledged. -/
def Engine.Asking (s : Engine) : Kind → Prop
  | .read => s.dma.req.h2fReqState = .dma1
  | .write => s.dma.f2h.f2hState = .dma1

/-- **Splitting and hand-over.** In every clock of every run, an acknowledgement finds the machine
that waits for it; the TLPs that the endpoint took are, one after the other and without another,
those that the DMAs are cut into; when the engine is ready again it took them all; and the pieces of
a DMA follow one another from its start to its end, none longer than the greatest length. -/
theorem dma_tlps (h : (engines cfg).Reachable s) (k : Kind) :
    (s.tx.ack k = true → s.Asking k) ∧
      (∃ rest, s.taken.pieces k ++ rest = s.pieces cfg k) ∧
      (s.ready k = true → s.taken.pieces k = s.pieces cfg k) ∧
      ∀ d ∈ s.dmas k,
        Tiles d.paddr.toNat (d.paddr.toNat + d.len.toNat)
          (cut (cfg.size k).bytes d.paddr.toNat d.len.toNat) ∧
        ∀ p ∈ cut (cfg.size k).bytes d.paddr.toNat d.len.toNat, p.size ≤ (cfg.size k).bytes := by
  obtain ⟨g, hg, hands⟩ := Engine.linked_of_reachable h k
  have htaken := (Engine.linked_of_reachable h k).taken
  refine ⟨fun hack => ?_, htaken.1, htaken.2,
    fun d _ => ⟨tiles_cut d.positive, fun p hp => size_of_mem_cut Size.bytes_pos hp⟩⟩
  have hasking := Handover.asking_of_ack hg
    (by rw [hands.server, ← hands.sound.framed.ack]; exact hack)
  rw [hands.requester] at hasking
  cases k with
  | read =>
    show s.dma.req.h2fReqState = .dma1
    rw [DmaCtrl.requester] at hasking
    cases hstate : s.dma.req.h2fReqState <;> simp [hstate] at hasking ⊢
  | write =>
    show s.dma.f2h.f2hState = .dma1
    rw [DmaCtrl.requester] at hasking
    cases hstate : s.dma.f2h.f2hState <;> simp [hstate] at hasking ⊢

/-- Run through the clocks. -/
def Engine.run (cfg : Cfg) (s : Engine) (l : List EngineIn) : Engine := l.foldl (Engine.next cfg) s

theorem Engine.reachable_run (h : (engines cfg).Reachable s) (l : List EngineIn) :
    (engines cfg).Reachable (s.run cfg l) := by
  induction l generalizing s with
  | nil => exact h
  | cons i l ih => exact ih (h.step ⟨i, rfl⟩)

/-- Requests of at most 128 bytes. -/
def sampleCfg : Cfg := ⟨⟨0, Nat.zero_le 5⟩, ⟨0, Nat.zero_le 5⟩, false⟩

/-- A read of 136 bytes. -/
def sampleRead : Dma := ⟨0x1000, 136, rfl, Nat.succ_pos 135, rfl, by decide⟩

/-- A clock in which a read may start, and in which some DWords come back. -/
def engineClock (h2f : Option Dma) (cpldRecvFinish : Bool) : EngineIn :=
  ⟨default, cpldRecvFinish, 34, h2f, none⟩

/-- The read, from its start until its completion came back. -/
def sampleReadRun : List EngineIn :=
  engineClock (some sampleRead) false :: List.replicate 12 (engineClock none false) ++
    [engineClock none true, engineClock none false, engineClock none false]

/-- The read goes out as two requests, and no more. -/
theorem dma_tlps_sampleRead :
    (Engine.run sampleCfg {} sampleReadRun).taken.pieces .read =
      cut 128 0x1000 136 ∧ Tiles 0x1000 0x1088 (cut 128 0x1000 136) := by
  have hinit : (engines sampleCfg).Reachable {} := .init rfl
  have h := dma_tlps (Engine.reachable_run hinit sampleReadRun) .read
  refine ⟨(h.2.2.1 (by decide)).trans (List.append_nil _), ?_⟩
  exact (h.2.2.2 sampleRead List.mem_cons_self).1

end PcieCsr

end LeapPlatforms
