import LeapPlatforms.PcieCsr.DmaRead
import LeapPlatforms.PcieCsr.SoftReset
import LeapPlatforms.PcieCsr.WriteProgress

/-!
# Initialising the channel

The reset controller answers a request for initialisation with one clock of `hw_chnl_rst`. It resets
the DMA engine, its two FIFOs and the host machine; the transmitter and the receiver go on. Of the
engine, the machine that counts the completions of a read keeps its state and its count, so a read
that is cut off spoils the next one; and what the transmitter has begun for the engine is not taken
back.

## Main definitions

* `Engine.chnlRst`, `ReadSystem.chnlRst` — a clock of `hw_chnl_rst`
* `Channel`, `ChannelIn`, `Channel.next` — the reset controller, the host machine, the DMA engine,
  the transmitter, the receiver and the FIFOs
* `Channel.Quiet` — when the reset finds nothing that it cannot take back
* `Channel.Helped` — when nothing keeps the transmitter from its work
* `Channel.AsFromReset` — what is said of the DMAs since the last reset

## Main results

* `Channel.asFromReset_of_reachable`
* `Channel.read_spoiled` — a reset in the middle of a read
-/

namespace LeapPlatforms

namespace PcieCsr

open Handing Tiling

/-! ### A clock of `hw_chnl_rst` -/

/-- The transmitter goes on. What was started and taken is counted from here. -/
def Engine.chnlRst (cfg : Cfg) (s : Engine) (i : EngineIn) : Engine where
  tx := s.tx.next (s.txIn cfg i)
  dma := s.dma.next { s.dmaIn cfg i with hwChnlRst := true }

/-- The receiver goes on, and the host still answers the requests that it got. -/
def ReadSystem.chnlRst (mem : ℕ → BitVec 32) (cfg : Cfg) (s : ReadSystem) (i : ReadIn) :
    ReadSystem where
  engine := s.engine.chnlRst cfg (s.engineIn i)
  rx := { s.rx.next (rxClock i) with sent := [], written := [] }
  host := s.answered i ++ (s.newRequests cfg i).map (pieceDws mem)

/-! ### The channel -/

/-- The machines and the FIFOs. Beside them stand the words that the user got and gave since the
last reset, where the endpoint was in the TLP on the interface at that reset, and whether the clocks
were careful since. -/
structure Channel where
  rst : RstController := {}
  csr : CsrHostCtrl := {}
  sys : ReadSystem := {}
  h2fFifo : List (BitVec 64) := []
  f2hFifo : List (BitVec 64) := []
  got : List (BitVec 64) := []
  given : List (BitVec 64) := []
  start : Endpoint := ⟨.idle, []⟩
  careful : Bool := true

/-- What surrounds the channel in a clock: the endpoint, the host, the user and the two memories of
the host machine. -/
structure ChannelIn where
  trnTdstRdyN : Bool
  cfgCompleterId : BitVec 16
  gap : Bool
  trnRbarHitN : BitVec 7
  filler : BitVec 32
  answer : Option Answer
  h2fFifoFull : Bool
  h2f : Option Dma
  dmaInH2fFifoAck : Bool
  f2h : Option Dma
  given : List (BitVec 64)
  bar0RdData : BitVec 32
  bramDout : BitVec 32
  rst : RstIn

namespace Channel

variable (mem : ℕ → BitVec 32) (cfg : Cfg) (c : Channel) (i : ChannelIn)

/-- The transmitter. -/
def tx : TxWrapper := c.sys.engine.tx

/-- The DMA engine. -/
def dma : DmaCtrl := c.sys.engine.dma

/-- A FIFO shows nothing during its reset. -/
def txIn : TxIn where
  trnTdstRdyN := i.trnTdstRdyN
  cfgCompleterId := i.cfgCompleterId
  cpldStart := c.csr.cpldStart
  mrd32ReqData := c.csr.mrd32ReqData
  mrd32Req := c.sys.rx.rx.mrd32Req
  mrd64ReqStart := false
  mrd64Req := default
  mwr64Start := false
  mwr64 := default
  f2hFifoValid := !c.f2hFifo.isEmpty && !c.rst.hwChnlRstSig
  f2hFifoData := c.f2hFifo.headD 0

def readIn : ReadIn where
  tx := c.txIn i
  h2f := i.h2f
  f2h := i.f2h
  gap := i.gap
  h2fFifoFull := i.h2fFifoFull
  trnRbarHitN := i.trnRbarHitN
  filler := i.filler
  answer := i.answer

def csrIn : CsrHostIn where
  hwChnlRst := c.rst.hwChnlRstSig
  mrd32ReqAddr := c.sys.rx.rx.mrd32Req.addr
  csrRdStart := c.sys.rx.rx.csrRdStart
  mwr32Addr := c.sys.rx.rx.mwr32Addr
  mwr32Data := c.sys.rx.rx.mwr32Data
  csrWrStart := c.sys.rx.rx.csrWrStart
  cpldStartAck := c.tx.cpldStartAck
  cpldFinish := c.tx.sm.cpldFinish
  bar0RdData := i.bar0RdData
  bramDout := i.bramDout

/-- The clock is careful with the write FIFO. -/
def CarefulClock : Prop :=
  Careful { tx := c.tx, fifo := c.f2hFifo } ⟨c.txIn i, i.given, none⟩

instance : Decidable (c.CarefulClock i) := inferInstanceAs (Decidable (Careful _ _))

/-- Where the endpoint is in the TLP on the interface, before it takes what is offered; a write in
its last quadword needs one word. -/
def atTlp (s : TxWrapper) : Endpoint :=
  match s.sm.pcieTxState with
  | .cpldQwLast => ⟨.last, []⟩
  | .mwr64QwLast => ⟨.payload 1, [swapHalves s.sm.trnTd]⟩
  | _ => ⟨.idle, []⟩

/-- A rising clock edge. -/
def next : Channel :=
  if c.rst.hwChnlRstSig then
    { rst := c.rst.next i.rst
      csr := c.csr.next (c.csrIn i)
      sys := c.sys.chnlRst mem cfg (c.readIn i)
      start := atTlp (c.sys.chnlRst mem cfg (c.readIn i)).engine.tx }
  else
    { rst := c.rst.next i.rst
      csr := c.csr.next (c.csrIn i)
      sys := c.sys.next mem cfg (c.readIn i)
      h2fFifo :=
        (if i.dmaInH2fFifoAck then c.h2fFifo.tail else c.h2fFifo) ++
          if c.sys.rx.rx.h2fFifoWen then [c.sys.rx.rx.h2fFifoData] else []
      f2hFifo := (if c.tx.sm.f2hFifoRen then c.f2hFifo.tail else c.f2hFifo) ++ i.given
      got := c.got ++ if i.dmaInH2fFifoAck then c.h2fFifo.head?.toList else []
      given := c.given ++ i.given
      start := c.start
      careful := c.careful && decide (c.CarefulClock i) }

/-- The reset finds no read that waits for completions, no write that the transmitter has begun and
that still needs words, and no request of the engine that the transmitter has taken or takes in this
clock. -/
structure Quiet (c : Channel) (i : ChannelIn) : Prop where
  recv : c.dma.recv.h2fRecvState = .idle
  payload : c.tx.sm.pcieTxState ≠ .mwr64Qw1 ∧ c.tx.sm.pcieTxState ≠ .mwr64Qwn
  taken : c.tx.sm.pcieTxState = .rst →
    c.tx.arb.txSelFlag ≠ .doTxMrd64Req ∧ c.tx.arb.txSelFlag ≠ .doTxMwr64
  takes : c.tx.sm.pcieTxState = .rst ∧ c.tx.arb.txSelFlag = .doNothing ∨
      i.trnTdstRdyN = false ∧ (c.tx.sm.pcieTxState = .cpldQwLast ∨
        c.tx.sm.pcieTxState = .mwr64QwLast ∨ c.tx.sm.pcieTxState = .mrd64ReqQwLast) →
    c.csr.cpldStart = true ∨
      c.dma.req.mrd64ReqStart = false ∧ c.dma.f2h.mwr64Start = false

/-- The host answers what it was asked for, with completions of less than 1024 DWords. -/
def HostAnswers (c : Channel) (i : ChannelIn) : Prop :=
  Answers c.sys (c.readIn i) ∧ ShortAnswers (c.readIn i)

/-- The channel from `rst_n` on, with resets that meet a condition. -/
def channelsWhere (P : Channel → ChannelIn → Prop) : TransitionSystem Channel where
  init c := c = {}
  step c d := ∃ i, c.HostAnswers i ∧ (c.rst.hwChnlRstSig = true → P c i) ∧ d = c.next mem cfg i

/-- The state after so many clocks of an endless run. -/
def after (c : Channel) (cs : ℕ → ChannelIn) : ℕ → Channel
  | 0 => c
  | n + 1 => after (c.next mem cfg (cs 0)) (fun k => cs (k + 1)) n

/-- Nothing keeps the transmitter from its work: there is no reset, the endpoint is ready, the host
reads no register, the user starts no DMA, and a payload finds a word in the FIFO. -/
structure Helped (c : Channel) (i : ChannelIn) : Prop where
  running : c.rst.hwChnlRstSig = false
  answers : c.HostAnswers i
  ready : i.trnTdstRdyN = false
  noCpld : c.csr.cpldStart = false
  noDma : i.h2f = none ∧ i.f2h = none
  payload : c.tx.sm.pcieTxState = .mwr64Qwn → c.f2hFifo ≠ []

/-- What is said of the DMAs since the last reset, be it by `rst_n` or by `hw_chnl_rst`. -/
structure AsFromReset (c : Channel) : Prop where
  /-- The TLPs are those of the DMAs, in order. -/
  tlps : ∀ k, ∃ rest, c.sys.engine.taken.pieces k ++ rest = c.sys.engine.pieces cfg k
  allTlps : ∀ k, c.sys.engine.ready k = true →
    c.sys.engine.taken.pieces k = c.sys.engine.pieces cfg k
  /-- A TLP that is missing is asked for, or the transmitter is at one. -/
  missing : ∀ k, c.sys.engine.taken.pieces k ≠ c.sys.engine.pieces cfg k → ∀ i,
    ((c.sys.engine.txIn cfg i).offer k).isSome = true ∨ c.tx.server k ≠ .other
  /-- The user gets the words of the completions, in order. -/
  words : ∃ rest, (c.got ++ c.h2fFifo).flatMap wordDws ++ rest = c.sys.rx.sent
  /-- They are words of the reads, each once. -/
  own : ∃ rest, (c.sys.rx.sent ++ rest).Perm (c.sys.stream mem)
  allWords : c.sys.engine.ready .read = true →
    ((c.got ++ c.h2fFifo).flatMap wordDws).Perm (c.sys.stream mem)
  /-- The endpoint gets the words that the user gave since. -/
  payload : c.careful = true →
    ∃ e, Endpoint.takeAll ⟨c.start.phase, c.start.stream ++ c.given⟩ c.sys.engine.accepted = some e
  /-- A read whose words are all there ends. -/
  readEnds : c.rst.hwChnlRstSig = false →
    ((c.got ++ c.h2fFifo).flatMap wordDws).Perm (c.sys.stream mem) →
    c.sys.engine.ready .read = true ∨ ∀ i, (c.next mem cfg i).sys.engine.ready .read = true
  /-- A write whose TLPs were all sent ends. -/
  writeEnds : c.rst.hwChnlRstSig = false →
    c.sys.engine.taken.pieces .write = c.sys.engine.pieces cfg .write →
    c.tx.sm.mwr64Finish = true →
    c.sys.engine.ready .write = true ∨ ∀ i, (c.next mem cfg i).sys.engine.ready .write = true
  /-- All TLPs are sent when nothing keeps the transmitter from it, and the writes end. -/
  goesOut : ∀ cs : ℕ → ChannelIn, (∀ n, Helped (c.after mem cfg cs n) (cs n)) → ∃ n,
    (∀ k, (c.after mem cfg cs n).sys.engine.taken.pieces k =
      (c.after mem cfg cs n).sys.engine.pieces cfg k) ∧
    (c.after mem cfg cs n).sys.engine.ready .write = true

end Channel

/-! ### The transmitter at a reset -/

namespace TxWrapper

variable {s : TxWrapper} {i : TxIn}

/-- What the machine leaves behind when it leaves a payload, and how it frames the other TLPs. -/
structure Tidy (s : TxWrapper) : Prop where
  ren : s.sm.pcieTxState ≠ .mwr64Qwn → s.sm.f2hFifoRen = false
  skid : s.sm.pcieTxState ≠ .mwr64Qwn → s.sm.f2hDataTmpValid = false
  header : s.sm.pcieTxState = .cpldQw1 → s.sm.trnTsofN = false ∧ s.sm.trnTeofN = true ∧
    s.sm.trnTd.extractLsb' 56 7 = pcieCpldFmtType
  last : s.sm.pcieTxState = .cpldQwLast ∨ s.sm.pcieTxState = .mwr64QwLast →
    s.sm.trnTsofN = true ∧ s.sm.trnTeofN = false

theorem tidy_start : Tidy {} := by
  refine ⟨fun _ => rfl, fun _ => rfl, ?_, ?_⟩
  · rintro ⟨⟩
  · rintro (⟨⟨⟩⟩ | ⟨⟨⟩⟩)

/-- A clock of the payload. -/
theorem Tidy.next_qwn (hf : Framed s) (hqwn : s.sm.pcieTxState = .mwr64Qwn) :
    Tidy (s.next i) := by
  have hbody := hf.body hqwn
  have hsm : (s.next i).sm = s.mainQwn i := by
    show s.mainSm i = _
    rw [mainSm, hqwn]
  cases hready : i.trnTdstRdyN with
  | true => refine ⟨?_, ?_, ?_, ?_⟩ <;> rw [hsm, mainQwn] <;> simp [hready, hqwn]
  | false =>
    cases hvalid : i.f2hFifoValid with
    | false => refine ⟨?_, ?_, ?_, ?_⟩ <;> rw [hsm, mainQwn] <;> simp [hready, hvalid, hqwn]
    | true =>
      by_cases hlen : s.sm.mwr64LenRem = 2#10 <;>
        refine ⟨?_, ?_, ?_, ?_⟩ <;> rw [hsm, mainQwn] <;> simp [hready, hvalid, hlen, hbody]

theorem Tidy.next (h : Tidy s) (hf : Framed s) : Tidy (s.next i) := by
  by_cases hqwn : s.sm.pcieTxState = .mwr64Qwn
  · exact Tidy.next_qwn hf hqwn
  · obtain ⟨hren, hskid, hheader, hlast⟩ := h
    have hren := hren hqwn
    have hskid := hskid hqwn
    have hsm : (s.next i).sm = s.mainSm i := rfl
    by_cases hrst : s.sm.pcieTxState = .rst
    · rw [mainSm, hrst] at hsm
      cases hsel : s.arb.txSelFlag <;> refine ⟨?_, ?_, ?_, ?_⟩ <;> rw [hsm, mainRst, hsel] <;>
        simp [hren, hskid, cpldHeader_fmt]
    · cases hready : i.trnTdstRdyN with
      | true =>
        rw [s.mainSm_stall i hready hrst hqwn] at hsm
        refine ⟨?_, ?_, ?_, ?_⟩ <;> rw [hsm]
        · exact fun _ => hren
        · exact fun _ => hskid
        · exact hheader
        · exact hlast
      | false =>
        refine ⟨?_, ?_, ?_, ?_⟩ <;> rw [hsm, mainSm] <;>
          cases hstate : s.sm.pcieTxState <;> simp_all

/-- The machine is at no request of the engine that needs anything of it. -/
def Rested (s : TxWrapper) : Prop :=
  s.sm.pcieTxState = .rst ∧ (s.arb.txSelFlag = .doNothing ∨ s.arb.txSelFlag = .doTxCpld) ∨
    s.sm.pcieTxState = .cpldQw1 ∨ s.sm.pcieTxState = .cpldQwLast ∨ s.sm.pcieTxState = .mwr64QwLast

theorem Rested.server_read (h : s.Rested) : s.server .read = .other := by
  rw [server]
  rcases h with ⟨h, hsel | hsel⟩ | h | h | h <;> rw [h]
  · simp [hsel, Kind.sel]
  · simp [hsel, Kind.sel]
  · rfl

theorem Rested.server_write (h : s.Rested) :
    s.server .write = .other ∨
      s.sm.pcieTxState = .mwr64QwLast ∧ s.server .write = .finishing := by
  rw [server]
  rcases h with ⟨h, hsel | hsel⟩ | h | h | h <;> rw [h]
  · simp [hsel, Kind.sel]
  · simp [hsel, Kind.sel]
  · exact Or.inl rfl
  · exact Or.inl rfl
  · exact Or.inr ⟨rfl, rfl⟩

end TxWrapper

/-- A choice without a request of the engine. -/
theorem Arbiter.choose_other {a : Arbiter} {i : TxIn}
    (h : i.cpldStart = true ∨ i.mrd64ReqStart = false ∧ i.mwr64Start = false) :
    (a.choose i).txSelFlag = .doNothing ∨ (a.choose i).txSelFlag = .doTxCpld := by
  rw [choose]
  cases hcpld : i.cpldStart with
  | true => exact Or.inr rfl
  | false =>
    obtain ⟨hread, hwrite⟩ := h.resolve_left (by simp [hcpld])
    left
    simp [hread, hwrite]

namespace Channel

variable {mem : ℕ → BitVec 32} {cfg : Cfg} {c : Channel} {i : ChannelIn}

/-- Behind a reset at a quiet moment the transmitter is at no request of the engine. -/
theorem Quiet.rested (h : c.Quiet i) (hread : c.tx.server .read = .other) :
    (c.tx.next (c.sys.engine.txIn cfg (c.sys.engineIn (c.readIn i)))).Rested := by
  obtain ⟨-, ⟨hqw1, hqwn⟩, htaken, htakes⟩ := h
  generalize hj : c.sys.engine.txIn cfg (c.sys.engineIn (c.readIn i)) = j
  have hready : j.trnTdstRdyN = i.trnTdstRdyN := by rw [← hj]; rfl
  have hoffer : j.cpldStart = c.csr.cpldStart ∧ j.mrd64ReqStart = c.dma.req.mrd64ReqStart ∧
      j.mwr64Start = c.dma.f2h.mwr64Start := by rw [← hj]; exact ⟨rfl, rfl, rfl⟩
  rw [← hoffer.1, ← hoffer.2.1, ← hoffer.2.2, ← hready] at htakes
  have hsm : (c.tx.next j).sm = c.tx.mainSm j := rfl
  have harb : (c.tx.next j).arb = c.tx.arbitrator j := rfl
  rw [TxWrapper.server] at hread
  cases hstate : c.tx.sm.pcieTxState with
  | mwr64Qw1 => exact absurd hstate hqw1
  | mwr64Qwn => exact absurd hstate hqwn
  | mrd64ReqQw1 => simp [hstate] at hread
  | mrd64ReqQwLast => simp [hstate] at hread
  | rst =>
    obtain ⟨hnoRead, hnoWrite⟩ := htaken hstate
    rw [TxWrapper.mainSm, hstate] at hsm
    cases hsel : c.tx.arb.txSelFlag with
    | doTxMrd64Req => exact absurd hsel hnoRead
    | doTxMwr64 => exact absurd hsel hnoWrite
    | doTxCpld =>
      right; left
      rw [hsm, TxWrapper.mainRst, hsel]
    | doNothing =>
      left
      rw [TxWrapper.arbitrator, hstate] at harb
      simp only [hsel, if_true] at harb
      refine ⟨by rw [hsm, TxWrapper.mainRst, hsel], ?_⟩
      rw [harb]
      exact Arbiter.choose_other (htakes (.inl ⟨hstate, hsel⟩))
  | cpldQw1 =>
    cases hstall : j.trnTdstRdyN with
    | true =>
      right; left
      simp [hsm, TxWrapper.mainSm, hstate, hstall]
    | false =>
      right; right; left
      simp [hsm, TxWrapper.mainSm, hstate, hstall]
  | cpldQwLast =>
    cases hstall : j.trnTdstRdyN with
    | true =>
      right; right; left
      simp [hsm, TxWrapper.mainSm, hstate, hstall]
    | false =>
      left
      refine ⟨by simp [hsm, TxWrapper.mainSm, hstate, hstall], ?_⟩
      rw [harb, TxWrapper.arbitrator, hstate]
      exact Arbiter.choose_other (htakes (.inr ⟨hstall, .inl hstate⟩))
  | mwr64QwLast =>
    cases hstall : j.trnTdstRdyN with
    | true =>
      right; right; right
      simp [hsm, TxWrapper.mainSm, hstate, hstall]
    | false =>
      left
      refine ⟨by simp [hsm, TxWrapper.mainSm, hstate, hstall], ?_⟩
      rw [harb, TxWrapper.arbitrator, hstate]
      exact Arbiter.choose_other (htakes (.inr ⟨hstall, .inr (.inl hstate)⟩))

end Channel

/-! ### The engine since a reset -/

namespace Engine

variable {cfg : Cfg} {s : Engine} {i : EngineIn} {k : Kind}

/-- As `Linked`, but the transmitter may still be at the last quadword of an earlier write. -/
def Joined (cfg : Cfg) (k : Kind) (s : Engine) : Prop :=
  ∃ g : Handover Piece, s.Hands cfg k g ∧
    (g.Agrees ∨ g.Leaving ∧ s.taken.pieces k = s.monitor.pieces k)

theorem Linked.joined (h : s.Linked cfg k) : s.Joined cfg k := by
  obtain ⟨g, hg, hands⟩ := h
  exact ⟨g, hands, .inl hg⟩

theorem Joined.sound (h : s.Joined cfg k) : s.Sound := by
  obtain ⟨g, hands, -⟩ := h
  exact hands.sound

/-- A server that finishes has shown all that it served. -/
theorem taken_of_finishing (h : s.Sound) (hserver : s.tx.server k = .finishing)
    (htaken : s.taken.pieces k = s.monitor.pieces k) :
    (s.next cfg i).taken.pieces k = (s.next cfg i).monitor.pieces k := by
  obtain ⟨out, hstep, hpieces⟩ :=
    (TxWrapper.Watched.next (i := s.txIn cfg i) h.framed h.watched).2 k
  rw [hserver] at hstep
  rw [← monitor_next h, hstep.out_of_finishing, List.append_nil] at hpieces
  rw [hpieces]
  cases hready : i.tx.trnTdstRdyN with
  | false => rw [taken_next hready]
  | true => rw [taken_stall hready, htaken]

theorem Joined.next (h : s.Joined cfg k) : (s.next cfg i).Joined cfg k := by
  obtain ⟨g, hands, hg⟩ := h
  obtain ⟨g', hstep, hands'⟩ := hands.next (i := i)
  refine ⟨g', hands', ?_⟩
  rcases hg with hagrees | ⟨hleaving, htaken⟩
  · exact Or.inl (hagrees.step hstep)
  · have hserver : s.tx.server k = .finishing := by
      rw [← hands.server]
      cases hleaving <;> rfl
    rcases hleaving.step hstep with hleaving' | hagrees
    · exact Or.inr ⟨hleaving', taken_of_finishing hands.sound hserver htaken⟩
    · exact Or.inl hagrees

/-- What was served comes first in what was asked. -/
theorem Joined.taken (h : s.Joined cfg k) :
    (∃ rest, s.taken.pieces k ++ rest = s.pieces cfg k) ∧
      (s.ready k = true → s.taken.pieces k = s.pieces cfg k) := by
  obtain ⟨g, hands, hagrees | ⟨hleaving, htaken⟩⟩ := h
  · exact Linked.taken ⟨g, hagrees, hands⟩
  · have hserved := hands.served
    have hasked := hands.asked
    rw [← htaken] at hserved
    refine ⟨?_, fun hready => ?_⟩
    · cases hleaving with
      | idle => exact ⟨[], by rw [List.append_nil, ← hserved, ← hasked]⟩
      | asking _ hall => exact ⟨_, by rw [← hserved, ← hasked]; exact hall⟩
    · have hidle := hands.requester.trans (hands.sound.requester_of_ready hready)
      cases hleaving with
      | idle => rw [← hserved, ← hasked]
      | asking hne _ => cases hidle

/-- A request that is missing is shown, or the server is at one. -/
theorem Joined.missing (h : s.Joined cfg k) (hmissing : s.taken.pieces k ≠ s.pieces cfg k) :
    ((s.txIn cfg i).offer k).isSome = true ∨ s.tx.server k ≠ .other := by
  obtain ⟨g, hands, hg⟩ := h
  by_cases hother : s.tx.server k = .other
  · left
    have hoffer : (s.txIn cfg i).offer k = (s.dma.requester cfg k).offer := by
      cases k with
      | read => exact offer_read hands.sound.req
      | write => exact offer_write hands.sound.f2h
    have hsame := hands.took.same (by rw [hother]; rintro ⟨⟩)
    have hserver := hands.server.trans hother
    rw [hsame, ← hands.served, ← hands.asked] at hmissing
    rw [hoffer, ← hands.requester]
    rcases hg with hagrees | ⟨hleaving, -⟩
    · cases hagrees with
      | @other p l _ _ _ hall =>
        cases l with
        | nil => exact absurd (by simpa using hall) hmissing
        | cons r l => rfl
      | _ => cases hserver
    · cases hleaving <;> cases hserver
  · exact Or.inr hother

/-- A write whose TLPs were all sent is over, or is in the next clock. -/
theorem Joined.write_ends (h : s.Joined cfg .write)
    (hall : s.taken.pieces .write = s.pieces cfg .write) (hfinish : s.tx.sm.mwr64Finish = true) :
    s.ready .write = true ∨ (s.next cfg i).ready .write = true := by
  obtain ⟨g, hands, hg⟩ := h
  have hfinished : (s.tx.server .write).finished = true := by
    rw [← hands.sound.framed.finish]
    exact hfinish
  have hne : s.tx.server .write ≠ .finishing := by
    intro hfinishing
    rw [hfinishing] at hfinished
    cases hfinished
  -- nothing is asked for any more
  have htodo : (s.dma.requester cfg .write).todo = [] := by
    rw [hands.took.same hne, ← hands.served, ← hands.asked] at hall
    rw [← hands.requester]
    rcases hg with hagrees | ⟨hleaving, -⟩
    · exact (Handover.of_served_eq hagrees hall).1
    · have hserver := hands.server
      cases hleaving <;> exact absurd hserver.symm hne
  rw [DmaCtrl.requester] at htodo
  cases hstate : s.dma.f2h.f2hState with
  | idle =>
    left
    show s.dma.f2h.dmaOutF2hReady = true
    rw [hands.sound.f2h.ready, hstate]
    rfl
  | dma1 =>
    rw [hstate] at htodo
    exact absurd htodo cut_ne_nil
  | dma2 =>
    right
    rw [hstate] at htodo
    show (s.dma.f2hSm (s.dmaIn cfg i)).dmaOutF2hReady = true
    by_cases hlast : s.dma.f2h.f2hFinish = true
    · rw [DmaCtrl.f2hSm, hstate]
      simp [dmaIn, hfinish, hlast]
    · simp only [if_neg hlast] at htodo
      exact absurd htodo cut_ne_nil

/-- The ready output of an idle engine is set; behind a reset it may be a clock late. -/
def settled (s : Engine) : Engine :=
  { s with dma := { s.dma with req := { s.dma.req with
      dmaOutH2fReady := decide (s.dma.req.h2fReqState = .idle) || s.dma.req.dmaOutH2fReady } } }

/-- While the output is late no read is started. -/
def withheld (s : Engine) (i : EngineIn) : EngineIn := { i with h2f := s.h2fStart i }

theorem h2fStart_settled : s.settled.h2fStart (s.withheld i) = s.h2fStart i := by
  rw [h2fStart, h2fStart, withheld, settled]
  cases hready : s.dma.req.dmaOutH2fReady <;> simp [h2fStart, hready]

theorem settled_of_ready (h : s.dma.req.dmaOutH2fReady = decide (s.dma.req.h2fReqState = .idle)) :
    s.settled = s := by
  rw [settled, ← h, Bool.or_self]

theorem settled_of_busy (h : s.dma.req.h2fReqState ≠ .idle) : s.settled = s := by
  rw [settled, decide_eq_false h, Bool.false_or]

/-- Nothing but the start of a read depends on the output. -/
theorem next_settled : s.next cfg i = s.settled.next cfg (s.withheld i) := by
  have hstart := h2fStart_settled (s := s) (i := i)
  have hin : s.settled.dmaIn cfg (s.withheld i) = s.dmaIn cfg i := by
    rw [dmaIn, dmaIn, hstart]
    rfl
  have hreq : (s.settled.dma.next (s.dmaIn cfg i)) = s.dma.next (s.dmaIn cfg i) := by
    by_cases hidle : s.dma.req.h2fReqState = .idle
    · have hsm : s.settled.dma.h2fReqSm (s.dmaIn cfg i) = s.dma.h2fReqSm (s.dmaIn cfg i) := by
        rw [DmaCtrl.h2fReqSm, DmaCtrl.h2fReqSm, settled, hidle]
        rfl
      rw [DmaCtrl.next, DmaCtrl.next, hsm]
      rfl
    · rw [settled_of_busy hidle]
  rw [next, next, txIn, txIn, hin, hreq, hstart]
  rfl

/-- The engine with the transmitter as it is: what is left of its registers is written before it is
read. -/
def restarted (t : TxWrapper) (lenRem : BitVec 32) (finish : Bool) : Engine where
  tx := t
  dma := { recv := { h2fRecvLenRem := lenRem }, f2h := { f2hFinish := finish } }

variable {t : TxWrapper} {lenRem : BitVec 32} {finish : Bool}

/-- The monitor of a machine that is at no request of the engine. -/
theorem watched_restarted (hf : t.Framed) (ht : t.Tidy) (hr : t.Rested) :
    t.Watched (restarted t lenRem finish).monitor ∧
      ∀ k, (restarted t lenRem finish).monitor.pieces k = [] := by
  have hmonitor : (restarted t lenRem finish).monitor = Monitor.watchAll {} t.offered := rfl
  rw [hmonitor, TxWrapper.offered]
  rcases hr with ⟨hstate, -⟩ | hstate | hlast
  · rw [hf.rest hstate]
    refine ⟨⟨?_, ?_, ?_, fun _ _ _ => rfl⟩, fun k => rfl⟩
    all_goals
      rw [hstate]
      rintro ⟨⟩
  · have hsrc := hf.busy (by rw [hstate]; decide) (by rw [hstate]; decide)
    obtain ⟨hsof, -, hfmt⟩ := ht.header hstate
    rw [hsrc]
    have hwatch : Monitor.watchAll {} [⟨t.sm.trnTd, t.sm.trnTsofN, t.sm.trnTeofN⟩] =
        { header := some t.sm.trnTd } := if_pos hsof
    refine ⟨⟨fun _ => ⟨t.sm.trnTd, by simp [hwatch], hfmt⟩, ?_, ?_, ?_⟩, fun k => ?_⟩
    · rw [hstate]
      rintro ⟨⟩
    · rw [hstate]
      rintro ⟨⟩
    · exact fun h => absurd hstate h
    · simp only [Bool.false_eq_true, if_false, hwatch]
      rfl
  · obtain ⟨hsof, -⟩ := ht.last hlast
    have hwatch : Monitor.watchAll {} (if t.sm.trnTsrcRdyN then [] else
        [⟨t.sm.trnTd, t.sm.trnTsofN, t.sm.trnTeofN⟩]) = {} := by
      split
      · rfl
      · exact Monitor.watch_body (m := {}) (b := ⟨t.sm.trnTd, t.sm.trnTsofN, t.sm.trnTeofN⟩) rfl hsof
    rw [hwatch]
    refine ⟨⟨?_, ?_, ?_, fun _ _ _ => rfl⟩, fun k => rfl⟩
    all_goals rcases hlast with h | h <;> rw [h] <;> rintro ⟨⟩

theorem sound_restarted (hf : t.Framed) (ht : t.Tidy) (hr : t.Rested) :
    (restarted t lenRem finish).Sound :=
  ⟨hf, (watched_restarted hf ht hr).1, ⟨rfl, rfl, by rintro ⟨⟩⟩, ⟨rfl, rfl, by rintro ⟨⟩⟩⟩

theorem hands_restarted (hf : t.Framed) (ht : t.Tidy) (hr : t.Rested) (k : Kind) :
    (restarted t lenRem finish).Hands cfg k ⟨t.server k, ⟨.idle, []⟩, [], []⟩ := by
  have hpieces : (restarted t lenRem finish).monitor.pieces k = [] :=
    (watched_restarted hf ht hr).2 k
  refine ⟨sound_restarted hf ht hr, ⟨fun _ => hpieces.symm, fun hlast => ?_⟩, rfl, ?_, ?_,
    hpieces.symm⟩
  · have hstate : t.sm.pcieTxState = .mrd64ReqQwLast := hlast
    rcases hr with ⟨h, -⟩ | h | h | h <;> rw [hstate] at h <;> cases h
  · cases k <;> rfl
  · cases k <;> rfl

theorem linked_restarted (hf : t.Framed) (ht : t.Tidy) (hr : t.Rested) :
    (restarted t lenRem finish).Linked cfg .read := by
  refine ⟨_, ?_, hands_restarted hf ht hr .read⟩
  rw [hr.server_read]
  exact .other (by rintro ⟨⟩) rfl

theorem joined_restarted (hf : t.Framed) (ht : t.Tidy) (hr : t.Rested) :
    (restarted t lenRem finish).Joined cfg .write := by
  have hpieces : (restarted t lenRem finish).monitor.pieces .write = [] :=
    (watched_restarted hf ht hr).2 .write
  refine ⟨_, hands_restarted hf ht hr .write, ?_⟩
  rcases hr.server_write with h | ⟨-, h⟩ <;> rw [h]
  · exact Or.inl (.other (by rintro ⟨⟩) rfl)
  · exact Or.inr ⟨.idle, hpieces.symm⟩

/-- The engine behind a reset, with its ready output set. -/
theorem settled_chnlRst (cfg : Cfg) (i : EngineIn) (h : s.dma.recv.h2fRecvState = .idle) :
    (s.chnlRst cfg i).settled =
      restarted (s.tx.next (s.txIn cfg i)) s.dma.recv.h2fRecvLenRem s.dma.f2h.f2hFinish := by
  have hrecv : s.dma.h2fRecvSm { s.dmaIn cfg i with hwChnlRst := true } =
      { h2fRecvLenRem := s.dma.recv.h2fRecvLenRem } := by
    rw [DmaCtrl.h2fRecvSm, if_pos rfl]
    exact congrArg (H2fRecvSm.mk false s.dma.recv.h2fRecvLenRem) h
  rw [settled, chnlRst, DmaCtrl.next, hrecv]
  rfl

end Engine

/-! ### The work of the transmitter -/

/-- How many clocks it takes the machine to get to a choice or to an acknowledgement, when the
endpoint is ready. -/
def TxWrapper.steps (s : TxWrapper) : ℕ :=
  match s.sm.pcieTxState with
  | .rst =>
    match s.arb.txSelFlag with
    | .doNothing => 3
    | .doTxCpld => 6
    | .doTxMrd64Req | .doTxMwr64 => 2
  | .mrd64ReqQw1 => if s.mrd64ReqStartAck then 1 else 5
  | .mwr64Qw1 => if s.mwr64StartAck then 1 else 5 + quadwords s.sm.mwr64LenRem
  | .mwr64Qwn => 4 + quadwords s.sm.mwr64LenRem
  | .cpldQw1 => 5
  | .cpldQwLast | .mrd64ReqQwLast | .mwr64QwLast => 4

theorem Pending.even_pieceLen {size : Size} {addr : BitVec 64} {rem : BitVec 32}
    (h : Pending addr rem) : (pieceLen size.val rem).toNat % 2 = 0 := by
  have hlen : 4 * dwords (pieceLen size.val rem) = min size.bytes rem.toNat := h.dwords_pieceLen
  have hsize := size.bytes_mod
  have hrem := h.quadwords
  rw [dwords] at hlen
  split at hlen
  · next h0 => rw [h0]; rfl
  · omega

/-- A length that is sent is one of whole quadwords. -/
def TxWrapper.Even (s : TxWrapper) : Prop :=
  s.sm.pcieTxState = .mwr64Qw1 ∨ s.sm.pcieTxState = .mwr64Qwn → s.sm.mwr64LenRem.toNat % 2 = 0

theorem TxWrapper.Rested.even {t : TxWrapper} (h : t.Rested) : t.Even := by
  intro hpayload
  rcases h with ⟨h, -⟩ | h | h | h <;> rw [h] at hpayload <;> rcases hpayload with h' | h' <;>
    cases h'

namespace Engine

variable {cfg : Cfg} {s : Engine} {i : EngineIn} {k : Kind}

/-- How many pieces are to be acknowledged, and how far the transmitter is. -/
def work (cfg : Cfg) (s : Engine) : ℕ :=
  600 * ((s.dma.requester cfg .read).todo.length + (s.dma.requester cfg .write).todo.length) +
    s.tx.steps

/-- The transmitter rests, and nothing is asked for. -/
def Still (cfg : Cfg) (s : Engine) : Prop :=
  s.tx.sm.pcieTxState = .rst ∧ s.tx.arb.txSelFlag = .doNothing ∧
    ∀ k, (s.dma.requester cfg k).todo = []

theorem quadwords_le (len : BitVec 10) : quadwords len ≤ 512 := by
  have hlt := len.isLt
  rw [quadwords, dwords]
  split <;> omega

/-- A write that is latched is at the input. -/
theorem Joined.start_of_latched (h : s.Joined cfg .write) (hrst : s.tx.sm.pcieTxState = .rst)
    (hsel : s.tx.arb.txSelFlag = .doTxMwr64) : s.dma.f2h.mwr64Start = true := by
  obtain ⟨g, hands, hg⟩ := h
  have hserver : g.server = .latched (s.tx.copy .write).piece := by
    rw [hands.server, TxWrapper.server, hrst]
    exact if_pos hsel
  have hrequester := hands.requester
  rw [hands.sound.f2h.start]
  rcases hg with hagrees | ⟨hleaving, -⟩
  · cases hagrees with
    | latched hp _ =>
      rw [DmaCtrl.requester] at hrequester
      cases hstate : s.dma.f2h.f2hState with
      | idle => simp [hstate] at hrequester
      | dma1 => rfl
      | dma2 =>
        rw [hstate] at hrequester
        cases hlast : s.dma.f2h.f2hFinish with
        | true => simp [hlast] at hrequester
        | false => rfl
    | _ => cases hserver
  · cases hleaving <;> cases hserver

theorem even_next (h : s.Joined cfg .write) (heven : s.tx.Even) : (s.next cfg i).tx.Even := by
  have hsm : (s.next cfg i).tx.sm = s.tx.mainSm (s.txIn cfg i) := rfl
  rw [TxWrapper.Even, hsm, TxWrapper.mainSm]
  cases hstate : s.tx.sm.pcieTxState with
  | rst =>
    cases hsel : s.tx.arb.txSelFlag with
    | doTxMwr64 =>
      have hstart := h.start_of_latched hstate hsel
      intro _
      simp only [TxWrapper.mainRst, hsel]
      exact (h.sound.f2h.pending hstart).even_pieceLen
    | _ => simp [TxWrapper.mainRst, hsel]
  | mwr64Qwn =>
    have hlen := heven (.inr hstate)
    have hless := even_sub_two hlen
    simp only [TxWrapper.mainQwn]
    split
    · split
      · exact fun _ => hless
      · exact fun _ => hlen
    · exact fun _ => hlen
  | mwr64Qw1 =>
    have hlen := heven (.inl hstate)
    simp only
    split <;> exact fun _ => hlen
  | _ =>
    simp only
    split <;> simp [hstate]

/-- An acknowledgement finds a requester that waits for it. -/
theorem Joined.asking (h : s.Joined cfg k) (hack : s.tx.ack k = true) :
    (s.dma.requester cfg k).phase = .asking := by
  obtain ⟨g, hands, hg⟩ := h
  have hack' : g.server.ack = true := by
    rw [hands.server, ← hands.sound.framed.ack]
    exact hack
  rw [← hands.requester]
  rcases hg with hagrees | ⟨hleaving, -⟩
  · exact Handover.asking_of_ack hagrees hack'
  · cases hleaving <;> cases hack'

/-- Without a new DMA nothing more is asked for, and less with an acknowledgement. -/
theorem Joined.length_todo (h : s.Joined cfg k) (hnone : i.h2f = none ∧ i.f2h = none) :
    ((s.next cfg i).dma.requester cfg k).todo.length ≤ (s.dma.requester cfg k).todo.length ∧
      (s.tx.ack k = true → ((s.next cfg i).dma.requester cfg k).todo.length + 1 =
        (s.dma.requester cfg k).todo.length) := by
  have hnew : s.newPieces cfg i k = [] := by
    cases k <;> simp [newPieces, h2fStart, f2hStart, hnone]
  have hstep : Requester.Step (s.tx.ack k) (s.tx.finish k) (s.dma.requester cfg k)
      ((s.next cfg i).dma.requester cfg k) (s.newPieces cfg i k) := by
    cases k with
    | read => exact h.sound.req.next.2
    | write => exact h.sound.f2h.next.2
  rw [hnew] at hstep
  exact ⟨hstep.length_todo.1, fun hack => hstep.length_todo.2 hack (h.asking hack)⟩

/-- What is asked for is shown. -/
theorem Joined.start (h : s.Joined cfg k) (htodo : (s.dma.requester cfg k).todo ≠ []) :
    ((s.txIn cfg i).offer k).isSome = true := by
  have hoffer : (s.txIn cfg i).offer k = (s.dma.requester cfg k).offer := by
    cases k with
    | read => exact offer_read h.sound.req
    | write => exact offer_write h.sound.f2h
  rw [hoffer, Requester.offer]
  cases hl : (s.dma.requester cfg k).todo with
  | nil => exact absurd hl htodo
  | cons r l => rfl

/-- The choice when no completion is asked for. -/
theorem steps_choose {t : TxWrapper} (hrst : t.sm.pcieTxState = .rst) {a : Arbiter} {j : TxIn}
    (harb : t.arb = a.choose j) (hcpld : j.cpldStart = false) :
    t.steps ≤ 3 ∧ (j.mrd64ReqStart = true ∨ j.mwr64Start = true → t.steps = 2) := by
  rw [TxWrapper.steps, hrst]
  simp only
  rw [harb, Arbiter.choose, hcpld]
  cases hread : j.mrd64ReqStart <;> cases hwrite : j.mwr64Start <;>
    cases hpriority : a.priorityCounter[3] <;>
    simp [Arbiter.takeMrd64, Arbiter.takeMwr64, hpriority]

/-- **A clock of a ready endpoint is work done.** -/
theorem work_decreases (hread : s.Joined cfg .read) (hwrite : s.Joined cfg .write)
    (heven : s.tx.Even) (hready : i.tx.trnTdstRdyN = false) (hcpld : i.tx.cpldStart = false)
    (hnone : i.h2f = none ∧ i.f2h = none)
    (hvalid : s.tx.sm.pcieTxState = .mwr64Qwn → i.tx.f2hFifoValid = true) (hstill : ¬ s.Still cfg) :
    (s.next cfg i).work cfg < s.work cfg := by
  obtain ⟨hlessRead, hackRead⟩ := hread.length_todo (i := i) hnone
  obtain ⟨hlessWrite, hackWrite⟩ := hwrite.length_todo (i := i) hnone
  have hin : (s.txIn cfg i).trnTdstRdyN = false := hready
  have hcpld' : (s.txIn cfg i).cpldStart = false := hcpld
  have hsm : (s.next cfg i).tx.sm = s.tx.mainSm (s.txIn cfg i) := rfl
  have harb : (s.next cfg i).tx.arb = s.tx.arbitrator (s.txIn cfg i) := rfl
  rw [work, work]
  cases hstate : s.tx.sm.pcieTxState with
  | rst =>
    rw [TxWrapper.mainSm, hstate] at hsm
    cases hsel : s.tx.arb.txSelFlag with
    | doNothing =>
      have hsteps : s.tx.steps = 3 := by rw [TxWrapper.steps, hstate]; simp [hsel]
      have hrst : (s.next cfg i).tx.sm.pcieTxState = .rst := by rw [hsm, TxWrapper.mainRst, hsel]
      have hchoose : (s.next cfg i).tx.arb = s.tx.arb.choose (s.txIn cfg i) := by
        rw [harb, TxWrapper.arbitrator, hstate]
        exact if_pos hsel
      have hstart : (s.txIn cfg i).mrd64ReqStart = true ∨ (s.txIn cfg i).mwr64Start = true := by
        by_contra hno
        rw [not_or] at hno
        refine hstill ⟨hstate, hsel, fun k => ?_⟩
        by_contra htodo
        cases k with
        | read =>
          have := hread.start (i := i) htodo
          simp [TxIn.offer, hno.1] at this
        | write =>
          have := hwrite.start (i := i) htodo
          simp [TxIn.offer, hno.2] at this
      have htwo := (steps_choose hrst hchoose hcpld').2 hstart
      omega
    | doTxCpld =>
      have hsteps : s.tx.steps = 6 := by rw [TxWrapper.steps, hstate]; simp [hsel]
      have hsteps' : (s.next cfg i).tx.steps = 5 := by
        rw [TxWrapper.steps, hsm, TxWrapper.mainRst, hsel]
      omega
    | doTxMrd64Req =>
      have hsteps : s.tx.steps = 2 := by rw [TxWrapper.steps, hstate]; simp [hsel]
      have hack : (s.next cfg i).tx.mrd64ReqStartAck = true := by
        show s.tx.startAck .doTxMrd64Req = true
        simp [TxWrapper.startAck, hstate, hsel]
      have hsteps' : (s.next cfg i).tx.steps = 1 := by
        rw [TxWrapper.steps, hsm, TxWrapper.mainRst, hsel]
        exact if_pos hack
      omega
    | doTxMwr64 =>
      have hsteps : s.tx.steps = 2 := by rw [TxWrapper.steps, hstate]; simp [hsel]
      have hack : (s.next cfg i).tx.mwr64StartAck = true := by
        show s.tx.startAck .doTxMwr64 = true
        simp [TxWrapper.startAck, hstate, hsel]
      have hsteps' : (s.next cfg i).tx.steps = 1 := by
        rw [TxWrapper.steps, hsm, TxWrapper.mainRst, hsel]
        exact if_pos hack
      omega
  | mrd64ReqQw1 =>
    have hsteps' : (s.next cfg i).tx.steps = 4 := by
      rw [TxWrapper.steps, hsm, TxWrapper.mainSm, hstate]
      simp [hin]
    cases hack : s.tx.mrd64ReqStartAck with
    | true =>
      have hone := hackRead hack
      omega
    | false =>
      have hsteps : s.tx.steps = 5 := by rw [TxWrapper.steps, hstate]; simp [hack]
      omega
  | mwr64Qw1 =>
    have hle := quadwords_le s.tx.sm.mwr64LenRem
    have hsteps' : (s.next cfg i).tx.steps = 4 + quadwords s.tx.sm.mwr64LenRem := by
      rw [TxWrapper.steps, hsm, TxWrapper.mainSm, hstate]
      simp [hin]
    cases hack : s.tx.mwr64StartAck with
    | true =>
      have hone := hackWrite hack
      omega
    | false =>
      have hsteps : s.tx.steps = 5 + quadwords s.tx.sm.mwr64LenRem := by
        rw [TxWrapper.steps, hstate]
        simp [hack]
      omega
  | mwr64Qwn =>
    have hlen := heven (.inr hstate)
    have hpos := quadwords_pos hlen
    have hvalid' : (s.txIn cfg i).f2hFifoValid = true := hvalid hstate
    have hsteps : s.tx.steps = 4 + quadwords s.tx.sm.mwr64LenRem := by
      rw [TxWrapper.steps, hstate]
    rw [TxWrapper.mainSm, hstate] at hsm
    have hsteps' : (s.next cfg i).tx.steps < 4 + quadwords s.tx.sm.mwr64LenRem := by
      have hmain : (s.tx.mainQwn (s.txIn cfg i)).pcieTxState =
            (if s.tx.sm.mwr64LenRem = 2 then .mwr64QwLast else .mwr64Qwn) ∧
          (s.tx.mainQwn (s.txIn cfg i)).mwr64LenRem = s.tx.sm.mwr64LenRem - 2 := by
        rw [TxWrapper.mainQwn, if_pos hin, if_pos hvalid']
        exact ⟨rfl, rfl⟩
      rw [TxWrapper.steps, hsm, hmain.1, hmain.2]
      by_cases hlast : s.tx.sm.mwr64LenRem = 2
      · simp only [if_pos hlast]
        omega
      · simp only [if_neg hlast, quadwords_sub_two hlen hlast]
        omega
    omega
  | cpldQw1 =>
    have hsteps : s.tx.steps = 5 := by rw [TxWrapper.steps, hstate]
    have hsteps' : (s.next cfg i).tx.steps = 4 := by
      rw [TxWrapper.steps, hsm, TxWrapper.mainSm, hstate]
      simp [hin]
    omega
  | cpldQwLast | mrd64ReqQwLast | mwr64QwLast =>
    have hsteps : s.tx.steps = 4 := by rw [TxWrapper.steps, hstate]
    have hrst : (s.next cfg i).tx.sm.pcieTxState = .rst := by
      simp [hsm, TxWrapper.mainSm, hstate, hin]
    have hchoose : (s.next cfg i).tx.arb = s.tx.arb.choose (s.txIn cfg i) := by
      rw [harb, TxWrapper.arbitrator, hstate]
    have hthree := (steps_choose hrst hchoose hcpld').1
    omega

theorem Still.server (h : s.Still cfg) (k : Kind) : s.tx.server k = .other := by
  obtain ⟨hrst, hsel, -⟩ := h
  rw [TxWrapper.server, hrst]
  cases k <;> simp [hsel, Kind.sel]

/-- When nothing is asked for and the transmitter rests, everything was taken. -/
theorem Joined.taken_of_still (h : s.Joined cfg k) (hstill : s.Still cfg) :
    s.taken.pieces k = s.pieces cfg k := by
  have hother := hstill.server k
  obtain ⟨-, -, htodo⟩ := hstill
  obtain ⟨g, hands, hg⟩ := h
  have hrequester : g.requester.todo = [] := by rw [hands.requester, htodo]
  have hserver := hands.server.trans hother
  rw [hands.took.same (by rw [hother]; rintro ⟨⟩), ← hands.served, ← hands.asked]
  rcases hg with hagrees | ⟨hleaving, -⟩
  · cases hagrees with
    | other _ hall =>
      obtain rfl := hrequester
      simpa using hall
    | _ => cases hserver
  · cases hleaving <;> cases hserver

/-- It stays so without a new DMA. -/
theorem Still.next (h : s.Still cfg) (hread : s.Joined cfg .read) (hwrite : s.Joined cfg .write)
    (hcpld : i.tx.cpldStart = false) (hnone : i.h2f = none ∧ i.f2h = none) :
    (s.next cfg i).Still cfg := by
  obtain ⟨hrst, hsel, htodo⟩ := h
  have hjoined : ∀ k, s.Joined cfg k := by
    intro k
    cases k with
    | read => exact hread
    | write => exact hwrite
  have hnoOffer : ∀ k, (s.txIn cfg i).offer k = none := by
    intro k
    have hoffer : (s.txIn cfg i).offer k = (s.dma.requester cfg k).offer := by
      cases k with
      | read => exact offer_read hread.sound.req
      | write => exact offer_write hread.sound.f2h
    rw [hoffer, Requester.offer, htodo k]
    rfl
  have hstart : (s.txIn cfg i).mrd64ReqStart = false ∧ (s.txIn cfg i).mwr64Start = false := by
    have hr := hnoOffer .read
    have hw := hnoOffer .write
    constructor
    · cases hs : (s.txIn cfg i).mrd64ReqStart with
      | false => rfl
      | true => simp [TxIn.offer, hs] at hr
    · cases hs : (s.txIn cfg i).mwr64Start with
      | false => rfl
      | true => simp [TxIn.offer, hs] at hw
  have hcpld' : (s.txIn cfg i).cpldStart = false := hcpld
  refine ⟨?_, ?_, fun k => ?_⟩
  · show (s.tx.mainSm (s.txIn cfg i)).pcieTxState = .rst
    rw [TxWrapper.mainSm, hrst]
    simp only [TxWrapper.mainRst, hsel]
  · show (s.tx.arbitrator (s.txIn cfg i)).txSelFlag = .doNothing
    rw [TxWrapper.arbitrator, hrst]
    simp only [hsel, if_true, Arbiter.choose, hcpld', hstart.1, hstart.2, Bool.false_eq_true,
      if_false]
  · have hless := ((hjoined k).length_todo (i := i) hnone).1
    rw [htodo k] at hless
    exact List.length_eq_zero_iff.mp (Nat.le_zero.mp hless)

end Engine

/-! ### Reads since a reset -/

namespace ReadSystem

variable {mem : ℕ → BitVec 32} {cfg : Cfg} {s : ReadSystem} {i : ReadIn}

/-- What holds of the reads in every clock. -/
structure Reading (mem : ℕ → BitVec 32) (cfg : Cfg) (s : ReadSystem) : Prop where
  linked : s.engine.Linked cfg .read
  tallied : s.Tallied mem
  counted : s.Counted mem
  endWritten : s.rx.EndWritten
  /-- A read that has just started is not with the transmitter. -/
  started : s.engine.dma.req.h2fRecvStart = true → s.engine.tx.server .read = .other

/-- Counting starts with a read. -/
theorem idle_of_start (h : (s.next mem cfg i).engine.dma.req.h2fRecvStart = true) :
    s.engine.dma.req.h2fReqState = .idle ∨ s.engine.dma.req.h2fRecvStart = true := by
  have hreq : (s.next mem cfg i).engine.dma.req =
      s.engine.dma.h2fReqSm (s.engine.dmaIn cfg (s.engineIn i)) := rfl
  rw [hreq, DmaCtrl.h2fReqSm] at h
  cases hstate : s.engine.dma.req.h2fReqState with
  | idle => exact Or.inl rfl
  | dma1 =>
    rw [hstate, if_neg (by simp [Engine.dmaIn])] at h
    simp only at h
    split at h
    · split at h <;> cases h
    · cases h
  | dma2 =>
    rw [hstate, if_neg (by simp [Engine.dmaIn])] at h
    simp only at h
    right
    split at h
    · split at h <;> exact h
    · exact h
  | dma3 =>
    rw [hstate, if_neg (by simp [Engine.dmaIn])] at h
    simp only at h
    right
    split at h <;> exact h

theorem Reading.next (h : s.Reading mem cfg) (ha : Answers s i) (hi : ShortAnswers i) :
    (s.next mem cfg i).Reading mem cfg := by
  have hsound := h.linked.sound
  refine ⟨h.linked.next, h.tallied.next ha hi, h.counted.next h.tallied ha h.linked,
    h.tallied.receiving.endWritten_next, fun hstart => ?_⟩
  have hidle : s.engine.dma.req.h2fReqState = .idle := by
    rcases idle_of_start hstart with hidle | hstart'
    · exact hidle
    · -- a start is over in the next clock
      have hbusy := (h.counted.steady.start hstart').1
      have hover := (busy_next mem cfg i h.counted.steady hsound.req
        (by rw [hbusy]; decide)).2
      exact absurd (hover.symm.trans hstart) (by decide)
  have hrest : s.engine.dma.requester cfg .read = ⟨.idle, []⟩ := by
    rw [DmaCtrl.requester, hidle]
  obtain ⟨g, hagrees, hands⟩ := h.linked
  have hother : s.engine.tx.server .read = .other := by
    rw [← hands.server]
    exact (hagrees.of_idle (by rw [hands.requester, hrest]) (by rw [hands.requester, hrest])).1
  obtain ⟨out, hstep, -⟩ := (TxWrapper.Watched.next
    (i := s.engine.txIn cfg (s.engineIn i)) hsound.framed hsound.watched).2 .read
  rw [hother, offer_read hsound.req, hrest] at hstep
  show (s.engine.tx.next (s.engine.txIn cfg (s.engineIn i))).server .read = .other
  generalize (s.engine.tx.next (s.engine.txIn cfg (s.engineIn i))).server .read = w at hstep ⊢
  cases hstep with
  | rest => rfl
  | latch hr => cases hr

/-- While the engine counts no completions, none is due, and the transmitter has no request. -/
theorem Reading.none_due (h : s.Reading mem cfg)
    (hrecv : s.engine.dma.recv.h2fRecvState = .idle) :
    s.rx.uncounted = 0 ∧ s.host.flatten = [] ∧ s.engine.tx.server .read = .other := by
  have htally := h.tallied.tally.length_eq
  have hsent := h.tallied.sent_le
  have htaken := taken_le mem h.linked
  have hcount := h.counted.count
  rw [List.length_append] at htally
  cases hstart : s.engine.dma.req.h2fRecvStart with
  | true =>
    have htaken' := taken_start mem h.linked (h.counted.steady.start hstart).1
    rw [DmaCtrl.left_of_start hstart] at hcount
    exact ⟨by omega, List.length_eq_zero_iff.mp (by omega), h.started hstart⟩
  | false =>
    have hleft := DmaCtrl.left_of_rest hstart hrecv
    obtain ⟨huncounted, -, hall⟩ := h.counted.quiet h.tallied h.linked hleft
    refine ⟨huncounted, List.length_eq_zero_iff.mp (by omega), ?_⟩
    -- the engine is idle, or about to be
    have hphase : s.engine.dma.requester cfg .read = ⟨.idle, []⟩ ∨
        s.engine.dma.requester cfg .read = ⟨.draining, []⟩ := by
      rw [DmaCtrl.requester]
      cases hfinish : s.engine.dma.recv.h2fRecvFinish with
      | true =>
        rw [h.counted.steady.finish hfinish]
        exact Or.inr rfl
      | false =>
        rw [h.counted.steady.rested hleft hfinish]
        exact Or.inl rfl
    obtain ⟨g, hagrees, hands⟩ := h.linked
    have hrequester := hands.requester
    rw [← hands.server]
    rcases hphase with hphase | hphase <;> rw [hphase] at hrequester <;>
      cases hagrees with
      | other => rfl
      | latched hp _ => cases hrequester
      | fresh _ => cases hrequester
      | started _ => cases hrequester
      | finishing _ => cases hrequester

def settled (s : ReadSystem) : ReadSystem := { s with engine := s.engine.settled }

/-- No request is taken while the transmitter has none. -/
theorem newRequests_eq_nil (h : s.engine.Linked cfg .read)
    (hother : s.engine.tx.server .read = .other) : s.newRequests cfg i = [] := by
  obtain ⟨g, -, hands⟩ := h
  have hsame := hands.took.same (by rw [hother]; rintro ⟨⟩)
  rw [newRequests]
  cases hready : (s.engineIn i).tx.trnTdstRdyN with
  | true => rw [Engine.taken_stall hready, List.drop_length]
  | false => rw [Engine.taken_next hready, hsame, List.drop_length]

/-- Behind a reset without completions that are due, the reads are as behind `rst_n`. -/
theorem Reading.chnlRst (h : s.Reading mem cfg)
    (hrecv : s.engine.dma.recv.h2fRecvState = .idle) (ha : Answers s i) (hi : ShortAnswers i)
    (ht : (s.engine.tx.next (s.engine.txIn cfg (s.engineIn i))).Tidy)
    (hr : (s.engine.tx.next (s.engine.txIn cfg (s.engineIn i))).Rested) :
    (s.chnlRst mem cfg i).settled.Reading mem cfg := by
  obtain ⟨huncounted, hhost, hother⟩ := h.none_due hrecv
  have hf : (s.engine.tx.next (s.engine.txIn cfg (s.engineIn i))).Framed :=
    h.linked.sound.framed.next
  have hengine := Engine.settled_chnlRst cfg (s.engineIn i) hrecv
  -- nothing comes in this clock, and nothing is on its way
  have hperm := loaded_perm (i := i) ha
  rw [hhost] at hperm
  obtain ⟨hloaded, hanswered⟩ := List.append_eq_nil_iff.mp hperm.eq_nil
  have hend : (s.rx.next (rxClock i)).EndWritten := h.tallied.receiving.endWritten_next
  have hzero : (s.rx.next (rxClock i)).uncounted = 0 := by
    have hsum := h.tallied.receiving.uncounted_next (c := rxClock i)
    rw [hloaded, huncounted] at hsum
    exact (Nat.add_eq_zero_iff.mp hsum).1
  have hnone := (h.tallied.receiving.next.uncounted_eq_zero hend).mp hzero
  have hsystem : (s.chnlRst mem cfg i).settled =
      { engine := Engine.restarted (s.engine.tx.next (s.engine.txIn cfg (s.engineIn i)))
          s.engine.dma.recv.h2fRecvLenRem s.engine.dma.f2h.f2hFinish
        rx := { s.rx.next (rxClock i) with sent := [], written := [] }
        host := s.answered i } := by
    rw [settled, ReadSystem.chnlRst, hengine, newRequests_eq_nil h.linked hother, List.map_nil,
      List.append_nil]
  have hreceiving := h.tallied.receiving.next (c := rxClock i)
  rw [hsystem]
  refine ⟨Engine.linked_restarted hf ht hr, ⟨⟨hreceiving.wf, hreceiving.meets, hreceiving.ready,
    hreceiving.wen, hreceiving.finish, ?_⟩, ?_, ?_⟩, ⟨⟨?_, ?_, fun _ => rfl, ?_, fun _ _ => rfl⟩,
    ?_, fun hopened _ => ?_⟩, hend, ?_⟩
  · show [] ++ ((s.rx.next (rxClock i)).rx.pending ++ (s.rx.next (rxClock i)).rx.held ++
      (s.rx.next (rxClock i)).sending.coming) = []
    rw [hnone]
    rfl
  · have hshort := short_next h.tallied.short h.tallied.receiving hi
    exact ⟨hshort.opened, hshort.whole⟩
  · show ([] ++ (s.answered i).flatten).Perm _
    rw [hanswered]
    exact List.Perm.refl []
  · rintro ⟨⟩
  · rintro ⟨⟩
  · rintro ⟨⟩
  · show 0 + 4 * 0 = 4 * 0 + 4 * (s.rx.next (rxClock i)).uncounted
    rw [hzero]
  · have hopened' : 0 < (s.rx.next (rxClock i)).rx.opened := hopened
    rw [RxSide.uncounted] at hzero
    omega
  · rintro ⟨⟩

end ReadSystem

/-! ### Writes since a reset -/

/-- The write at the input of the transmitter. -/
def Engine.writeReq (cfg : Cfg) (s : Engine) : MemReq where
  len := pieceLen cfg.maxPayloadSize.val s.dma.f2h.f2hLenRem
  tag := pieceTag cfg.maxPayloadSize.val s.dma.f2h.f2hLenRem cfg.extTagEn
  addr := s.dma.f2h.f2hCurAddr64

/-- It is one of whole quadwords. -/
def Engine.write? (cfg : Cfg) (s : Engine) : Option WriteReq :=
  if h : s.dma.f2h.mwr64Start = true ∧ (s.writeReq cfg).len.toNat % 2 = 0 then
    some ⟨s.writeReq cfg, h.2⟩
  else none

theorem Engine.write?_of_start {cfg : Cfg} {s : Engine} (h : s.dma.f2h.Sound)
    (hstart : s.dma.f2h.mwr64Start = true) :
    ∃ r, s.write? cfg = some r ∧ r.val = s.writeReq cfg := by
  have heven : (s.writeReq cfg).len.toNat % 2 = 0 := (h.pending hstart).even_pieceLen
  exact ⟨⟨s.writeReq cfg, heven⟩, dif_pos ⟨hstart, heven⟩, rfl⟩

theorem Engine.write?_of_rest {cfg : Cfg} {s : Engine} (hstart : s.dma.f2h.mwr64Start = false) :
    s.write? cfg = none := dif_neg (by simp [hstart])

/-- A write is at the input until it is acknowledged. -/
theorem Engine.write?_next {cfg : Cfg} {s : Engine} {i : EngineIn} (h : s.dma.f2h.Sound)
    (hstart : s.dma.f2h.mwr64Start = true) (hack : s.tx.mwr64StartAck = false) :
    (s.next cfg i).write? cfg = s.write? cfg := by
  have hkeep : (s.next cfg i).dma.f2h.mwr64Start = true ∧
      (s.next cfg i).dma.f2h.f2hCurAddr64 = s.dma.f2h.f2hCurAddr64 ∧
      (s.next cfg i).dma.f2h.f2hLenRem = s.dma.f2h.f2hLenRem := by
    have hf2h : (s.next cfg i).dma.f2h = s.dma.f2hSm (s.dmaIn cfg i) := rfl
    have hphase := h.start
    rw [hstart] at hphase
    rw [hf2h, DmaCtrl.f2hSm]
    cases hstate : s.dma.f2h.f2hState with
    | idle => simp [hstate] at hphase
    | dma1 => simp [Engine.dmaIn, hack]
    | dma2 =>
      have hmore : s.dma.f2h.f2hFinish = false := by simpa [hstate] using hphase
      cases hfinish : s.tx.sm.mwr64Finish <;> simp [Engine.dmaIn, hfinish, hmore, hstart]
  have hreq : (s.next cfg i).writeReq cfg = s.writeReq cfg := by
    rw [Engine.writeReq, Engine.writeReq, hkeep.2.1, hkeep.2.2]
  rw [Engine.write?, Engine.write?]
  simp only [hkeep.1, hstart, hreq]

theorem swapHalves_swapHalves (w : BitVec 64) : swapHalves (swapHalves w) = w := by
  have h : swapHalves (swapHalves w) = w.extractLsb' 32 32 ++ w.extractLsb' 0 32 := by
    rw [swapHalves, swapHalves, BitVec.extractLsb'_append_eq_right,
      BitVec.extractLsb'_append_eq_left]
  rw [h]
  exact BitVec.extractLsb'_append_extractLsb'

namespace Channel

variable {mem : ℕ → BitVec 32} {cfg : Cfg} {c : Channel} {i : ChannelIn} {v : List Beat}
  {w : List (BitVec 64)}

/-- The transmitter with the write FIFO; before the history since the reset stand quadwords and
words that take the endpoint to where it was at the reset. -/
def writeRun (cfg : Cfg) (c : Channel) (v : List Beat) (w : List (BitVec 64)) : WriteRun where
  tx := c.tx
  request := c.sys.engine.write? cfg
  fifo := c.f2hFifo
  arrived := w ++ c.given
  accepted := v ++ c.sys.engine.accepted

def engineIn (c : Channel) (i : ChannelIn) : EngineIn := c.sys.engineIn (c.readIn i)

def writeClock (cfg : Cfg) (c : Channel) (i : ChannelIn) : Clock where
  others := c.sys.engine.txIn cfg (c.engineIn i)
  arrive := i.given
  request := (c.sys.engine.next cfg (c.engineIn i)).write? cfg

theorem inputs_writeRun (hf : c.sys.engine.dma.f2h.Sound) (hsig : c.rst.hwChnlRstSig = false) :
    (c.writeRun cfg v w).inputs (c.writeClock cfg i) = c.sys.engine.txIn cfg (c.engineIn i) := by
  have hvalid : (!c.f2hFifo.isEmpty && !c.rst.hwChnlRstSig) = !c.f2hFifo.isEmpty := by
    rw [hsig, Bool.not_false, Bool.and_true]
  have hdata : c.f2hFifo.headD (c.f2hFifo.headD 0) = c.f2hFifo.headD 0 := by
    cases c.f2hFifo <;> rfl
  have hstart : (c.sys.engine.write? cfg).isSome = c.sys.engine.dma.f2h.mwr64Start ∧
      ((c.sys.engine.write? cfg).map Subtype.val).getD (c.sys.engine.writeReq cfg) =
        c.sys.engine.writeReq cfg := by
    cases hs : c.sys.engine.dma.f2h.mwr64Start with
    | true =>
      obtain ⟨r, hr, hval⟩ : ∃ r, c.sys.engine.write? cfg = some r ∧
          r.val = c.sys.engine.writeReq cfg := Engine.write?_of_start hf hs
      rw [hr]
      exact ⟨rfl, hval⟩
    | false =>
      rw [Engine.write?_of_rest hs]
      exact ⟨rfl, rfl⟩
  show { c.sys.engine.txIn cfg (c.engineIn i) with
      mwr64Start := (c.sys.engine.write? cfg).isSome
      mwr64 := ((c.sys.engine.write? cfg).map Subtype.val).getD (c.sys.engine.writeReq cfg)
      f2hFifoValid := !c.f2hFifo.isEmpty
      f2hFifoData := c.f2hFifo.headD (c.f2hFifo.headD 0) } = _
  rw [hstart.1, hstart.2, hdata, ← hvalid]
  rfl

theorem writeRun_next (hf : c.sys.engine.dma.f2h.Sound) (hsig : c.rst.hwChnlRstSig = false) :
    (c.next mem cfg i).writeRun cfg v w = (c.writeRun cfg v w).next (c.writeClock cfg i) := by
  have hrequest : (if c.tx.mwr64StartAck || (c.sys.engine.write? cfg).isNone then
      (c.sys.engine.next cfg (c.engineIn i)).write? cfg else c.sys.engine.write? cfg) =
        (c.sys.engine.next cfg (c.engineIn i)).write? cfg := by
    cases hack : c.tx.mwr64StartAck with
    | true => rfl
    | false =>
      cases hs : c.sys.engine.dma.f2h.mwr64Start with
      | true => rw [Engine.write?_next hf hs hack, ite_self]
      | false => rw [Engine.write?_of_rest hs]; rfl
  rw [next, if_neg (by simp [hsig]), WriteRun.next, inputs_writeRun hf hsig]
  show WriteRun.mk (c.tx.next (c.sys.engine.txIn cfg (c.engineIn i)))
      ((c.sys.engine.next cfg (c.engineIn i)).write? cfg) _ (w ++ (c.given ++ i.given))
      (v ++ (c.sys.engine.accepted ++ if i.trnTdstRdyN then [] else c.tx.offered)) =
    WriteRun.mk _ (if _ then _ else _) _ _ _
  rw [← hrequest, ← List.append_assoc, ← List.append_assoc]
  rfl

/-- The endpoint follows the words that the user gave since the last reset. -/
def Words (cfg : Cfg) (c : Channel) : Prop :=
  c.careful = true → ∃ v w, Endpoint.takeAll ⟨.idle, w⟩ v = some c.start ∧
    Settled (c.writeRun cfg v w) ∧ Follows (c.writeRun cfg v w)

theorem Words.next (h : c.Words cfg) (hf : c.sys.engine.dma.f2h.Sound)
    (hsig : c.rst.hwChnlRstSig = false) : (c.next mem cfg i).Words cfg := by
  intro hcareful
  have hnext : (c.next mem cfg i).careful = (c.careful && decide (c.CarefulClock i)) ∧
      (c.next mem cfg i).start = c.start := by
    rw [Channel.next, if_neg (by simp [hsig])]
    exact ⟨rfl, rfl⟩
  rw [hnext.1, Bool.and_eq_true] at hcareful
  obtain ⟨v, w, hstart, hsettled, hfollows⟩ := h hcareful.1
  have hclock : c.CarefulClock i := of_decide_eq_true hcareful.2
  have hc : Careful (c.writeRun cfg v w) (c.writeClock cfg i) :=
    ⟨hclock.bubble, hclock.starved, hclock.resume, hclock.last⟩
  refine ⟨v, w, by rw [hnext.2]; exact hstart, ?_, ?_⟩
  · rw [writeRun_next hf hsig]
    exact hsettled.step hc
  · rw [writeRun_next hf hsig]
    exact hfollows.step hsettled hc

/-- Quadwords and words that take the endpoint into a TLP. -/
theorem exists_history (t : TxWrapper) :
    ∃ v w, Endpoint.takeAll ⟨.idle, w⟩ v = some (atTlp t) := by
  rw [atTlp]
  split
  · refine ⟨[⟨cpldHeader ⟨0, 0, 0, 0, 0, 0, 0, 0, 0⟩ 0 0, false, true⟩], [], ?_⟩
    simp [Endpoint.take, cpldHeader_fmt, pcieCpldFmtType, pcieMwr64FmtType]
  · refine ⟨[⟨mwr64Header ⟨2, 0, 0⟩ 0, false, true⟩, ⟨0, true, true⟩], [swapHalves t.sm.trnTd], ?_⟩
    have hone : quadwords 2#10 = 1 := rfl
    simp [Endpoint.takeAll, Endpoint.take, mwr64Header_fmt, mwr64Header_len, hone]
  · exact ⟨[], [], rfl⟩

/-- What is offered ends the TLP, or starts one. -/
theorem atTlp_offered {t : TxWrapper} (hf : t.Framed) (ht : t.Tidy) (hr : t.Rested) :
    (atTlp t).takeAll t.offered =
      some ⟨WriteRun.phase { tx := t }, WriteRun.waiting { tx := t }⟩ := by
  have hskid : t.sm.f2hDataTmpValid = false := by
    refine ht.skid fun hqwn => ?_
    rcases hr with ⟨h, -⟩ | h | h | h <;> rw [hqwn] at h <;> cases h
  have hwaiting : WriteRun.waiting { tx := t } = [] := waiting_of hskid
  rw [hwaiting, TxWrapper.offered, atTlp, WriteRun.phase]
  rcases hr with ⟨hstate, -⟩ | hstate | hstate | hstate
  · simp [hstate, hf.rest hstate]
  · obtain ⟨hsof, heof, hfmt⟩ := ht.header hstate
    have hsrc := hf.busy (by rw [hstate]; decide) (by rw [hstate]; decide)
    simp [hstate, hsrc, Endpoint.take, hsof, heof, hfmt, pcieCpldFmtType, pcieMwr64FmtType]
  · obtain ⟨hsof, heof⟩ := ht.last (.inl hstate)
    have hsrc := hf.busy (by rw [hstate]; decide) (by rw [hstate]; decide)
    simp [hstate, hsrc, Endpoint.take, hsof, heof]
  · obtain ⟨hsof, heof⟩ := ht.last (.inr hstate)
    have hsrc := hf.busy (by rw [hstate]; decide) (by rw [hstate]; decide)
    simp [hstate, hsrc, Endpoint.take, hsof, heof, swapHalves_swapHalves]

/-- With the transmitter at no request of the engine and the write FIFO empty, writes are as behind
`rst_n`. -/
theorem words_restarted (hf : c.tx.Framed) (ht : c.tx.Tidy) (hr : c.tx.Rested)
    (hack : c.tx.mwr64StartAck = false) (hfifo : c.f2hFifo = []) (hgiven : c.given = [])
    (haccepted : c.sys.engine.accepted = []) (hstart : c.start = atTlp c.tx) : c.Words cfg := by
  intro _
  obtain ⟨v, w, hv⟩ := exists_history c.tx
  have hne : c.tx.sm.pcieTxState ≠ .mwr64Qwn ∧ c.tx.sm.pcieTxState ≠ .mwr64Qw1 := by
    rcases hr with ⟨h, -⟩ | h | h | h <;> rw [h] <;> exact ⟨by decide, by decide⟩
  refine ⟨v, w, by rw [hstart]; exact hv, ⟨hf.rest, fun hsrc => ?_, fun hren => ?_,
    fun hskid => ?_, fun hskid => ?_, fun h => absurd h hne.2, fun h => absurd h hne.1,
    fun h => ?_, fun hrst hsel => ?_, fun hack' => ?_⟩, ?_⟩
  · left
    by_contra hrst
    exact absurd (hsrc.symm.trans (hf.busy hrst hne.1)) (by decide)
  · exact absurd (hren.symm.trans (ht.ren hne.1)) (by decide)
  · exact absurd (hskid.symm.trans (ht.skid hne.1)) (by decide)
  · exact absurd (hskid.symm.trans (ht.skid hne.1)) (by decide)
  · rcases h with h | h
    · exact absurd h hne.2
    · exact absurd h hne.1
  · rcases hr with ⟨-, h | h⟩ | h | h | h
    · exact absurd (h.symm.trans hsel) (by decide)
    · exact absurd (h.symm.trans hsel) (by decide)
    · exact absurd (h.symm.trans hrst) (by decide)
    · exact absurd (h.symm.trans hrst) (by decide)
    · exact absurd (h.symm.trans hrst) (by decide)
  · exact absurd (hack'.symm.trans hack) (by decide)
  · have hoffered := atTlp_offered hf ht hr
    show Endpoint.takeAll ⟨.idle, w ++ c.given⟩ (v ++ c.sys.engine.accepted ++ c.tx.offered) =
      some ⟨WriteRun.phase { tx := c.tx }, (c.writeRun cfg v w).waiting⟩
    have hwaiting : (c.writeRun cfg v w).waiting = WriteRun.waiting { tx := c.tx } := by
      rw [WriteRun.waiting, WriteRun.waiting, writeRun, hfifo]
    rw [hgiven, haccepted, List.append_nil, List.append_nil, hwaiting, ← hoffered]
    exact Endpoint.takeAll_append hv

end Channel

/-! ### Runs -/

namespace RstController

variable {s : RstController} {i : RstIn}

/-- The reset of the channel is shown in one state only. -/
def OneClock (s : RstController) : Prop :=
  s.hwChnlRstSig = true → s.initState = .waitForChannelRst

/-- **A reset takes one clock.** -/
theorem OneClock.next (h : s.OneClock) :
    (s.next i).OneClock ∧ (s.hwChnlRstSig = true → (s.next i).hwChnlRstSig = false) := by
  -- Only the process of the initialisation has these registers.
  obtain ⟨t, hnext, hstate, hsig⟩ : ∃ t : RstController, s.next i = t.nextInit i ∧
      t.initState = s.initState ∧ t.hwChnlRstSig = s.hwChnlRstSig := by
    have hreq : (s.nextSoftrstReq i).initState = s.initState ∧
        (s.nextSoftrstReq i).hwChnlRstSig = s.hwChnlRstSig := by
      unfold nextSoftrstReq
      cases s.softrstReqState with
      | idle => exact ⟨rfl, rfl⟩
      | ready => cases i.pcieBar0RstSig <;> exact ⟨rfl, rfl⟩
      | busy => cases i.rstSoftrstReqEn <;> exact ⟨rfl, rfl⟩
    have hresp : ∀ t : RstController, (t.nextSoftrstResp i).initState = t.initState ∧
        (t.nextSoftrstResp i).hwChnlRstSig = t.hwChnlRstSig := by
      intro t
      unfold nextSoftrstResp
      cases t.softrstRespState with
      | idle | busy => exact ⟨rfl, rfl⟩
      | ready => cases i.rstSoftrstRespEn <;> exact ⟨rfl, rfl⟩
    exact ⟨_, rfl, (hresp _).1.trans hreq.1, (hresp _).2.trans hreq.2⟩
  rw [OneClock] at h ⊢
  rw [hnext, nextInit, hstate]
  rw [← hsig] at h ⊢
  cases hinit : s.initState with
  | idle | ready =>
    have hlow : ¬ t.hwChnlRstSig = true := fun hhigh => by
      rw [hinit] at h
      cases h hhigh
    cases i.rstInitReqEn <;> simp [hlow, hstate, hinit]
  | waitForChannelRst => simp
  | waitForRespAck =>
    have hlow : ¬ t.hwChnlRstSig = true := fun hhigh => by
      rw [hinit] at h
      cases h hhigh
    cases i.rstInitRespEn <;> simp [hlow]

end RstController

namespace Channel

variable {mem : ℕ → BitVec 32} {cfg : Cfg} {c d : Channel} {i : ChannelIn}

def settled (c : Channel) : Channel := { c with sys := c.sys.settled }

def withheld (c : Channel) (i : ChannelIn) : ChannelIn :=
  { i with h2f := c.sys.engine.h2fStart (c.engineIn i) }

theorem next_settled (hsig : c.rst.hwChnlRstSig = false) :
    c.next mem cfg i = c.settled.next mem cfg (c.withheld i) := by
  have hengine : c.sys.engine.next cfg (c.engineIn i) =
      c.sys.engine.settled.next cfg (c.sys.engine.withheld (c.engineIn i)) := Engine.next_settled
  have hsys : c.sys.next mem cfg (c.readIn i) =
      c.settled.sys.next mem cfg (c.settled.readIn (c.withheld i)) := by
    rw [ReadSystem.next, ReadSystem.next, ReadSystem.newRequests, ReadSystem.newRequests]
    show ReadSystem.mk (c.sys.engine.next cfg (c.engineIn i)) _ (_ ++ List.map _ (List.drop _
      ((c.sys.engine.next cfg (c.engineIn i)).taken.pieces .read))) = _
    rw [hengine]
    rfl
  have hlow : ¬ c.rst.hwChnlRstSig = true := by simp [hsig]
  have hlow' : ¬ c.settled.rst.hwChnlRstSig = true := hlow
  rw [next, next, if_neg hlow, if_neg hlow', hsys]
  rfl

theorem engine_next (hsig : c.rst.hwChnlRstSig = false) :
    (c.next mem cfg i).sys.engine =
      c.settled.sys.engine.next cfg (c.settled.engineIn (c.withheld i)) := by
  have hlow : ¬ c.settled.rst.hwChnlRstSig = true := by
    show ¬ c.rst.hwChnlRstSig = true
    simp [hsig]
  rw [next_settled hsig, Channel.next, if_neg hlow]
  rfl

/-- What holds of the DMAs in every clock, but for a ready output that is late. -/
structure Core (mem : ℕ → BitVec 32) (cfg : Cfg) (c : Channel) : Prop where
  tidy : c.tx.Tidy
  reading : c.sys.Reading mem cfg
  writing : c.sys.engine.Joined cfg .write
  words : c.Words cfg
  fifo : c.got ++ c.h2fFifo = c.sys.rx.written
  even : c.tx.Even

theorem Core.joined (h : c.Core mem cfg) (k : Kind) : c.sys.engine.Joined cfg k := by
  cases k with
  | read => exact h.reading.linked.joined
  | write => exact h.writing

/-- What holds in every clock. -/
structure Sound (mem : ℕ → BitVec 32) (cfg : Cfg) (c : Channel) : Prop where
  core : c.settled.Core mem cfg
  oneClock : c.rst.OneClock
  /-- The ready output is late in the clock behind a reset only. -/
  late : c.rst.hwChnlRstSig = true → c.settled = c

theorem Core.next (h : c.Core mem cfg) (hsig : c.rst.hwChnlRstSig = false)
    (ha : c.HostAnswers i) : (c.next mem cfg i).Core mem cfg := by
  have hsound := h.writing.sound
  have hwords : (c.next mem cfg i).Words cfg := h.words.next hsound.f2h hsig
  have hreading := h.reading.next ha.1 ha.2
  have hwriting := h.writing.next (i := c.engineIn i)
  have htidy := h.tidy.next (i := c.sys.engine.txIn cfg (c.engineIn i)) hsound.framed
  have heven := Engine.even_next (i := c.engineIn i) h.writing h.even
  rw [Channel.next, if_neg (by simp [hsig])] at hwords ⊢
  refine ⟨htidy, hreading, hwriting, hwords, ?_, heven⟩
  show c.got ++ (if i.dmaInH2fFifoAck then c.h2fFifo.head?.toList else []) ++
      ((if i.dmaInH2fFifoAck then c.h2fFifo.tail else c.h2fFifo) ++
        if c.sys.rx.rx.h2fFifoWen then [c.sys.rx.rx.h2fFifoData] else []) =
    c.sys.rx.written ++ if c.sys.rx.rx.h2fFifoWen then [c.sys.rx.rx.h2fFifoData] else []
  rw [← h.fifo]
  cases i.dmaInH2fFifoAck <;> cases c.h2fFifo <;> simp

/-- **A reset at a quiet moment** leaves the channel as `rst_n` does. -/
theorem Core.chnlRst (h : c.Core mem cfg) (hsig : c.rst.hwChnlRstSig = true)
    (ha : c.HostAnswers i) (hq : c.Quiet i) : (c.next mem cfg i).settled.Core mem cfg := by
  have hsound := h.writing.sound
  have hother := (h.reading.none_due hq.recv).2.2
  have hrested : (c.tx.next (c.sys.engine.txIn cfg (c.engineIn i))).Rested := hq.rested hother
  have hframed : (c.tx.next (c.sys.engine.txIn cfg (c.engineIn i))).Framed := hsound.framed.next
  have htidy : (c.tx.next (c.sys.engine.txIn cfg (c.engineIn i))).Tidy :=
    h.tidy.next hsound.framed
  have hreading := h.reading.chnlRst hq.recv ha.1 ha.2 htidy hrested
  have hengine := Engine.settled_chnlRst cfg (c.engineIn i) hq.recv
  rw [Channel.next, if_pos hsig]
  refine ⟨htidy, hreading, ?_, words_restarted hframed htidy hrested ?_ rfl rfl rfl rfl, rfl,
    hrested.even⟩
  · show ((c.sys.engine.chnlRst cfg (c.engineIn i)).settled).Joined cfg .write
    rw [hengine]
    exact Engine.joined_restarted hframed htidy hrested
  · -- an acknowledgement would be one for a request that the transmitter had
    show c.tx.startAck .doTxMwr64 = false
    by_contra hack
    have hrst := TxWrapper.mainSm_of_startAck (by simpa using hack)
    exact (hq.taken hrst.1).2 hrst.2

open ReadSystem in
theorem core_start : Core mem cfg {} := by
  have hrested : TxWrapper.Rested {} := .inl ⟨rfl, .inl rfl⟩
  have hframed : TxWrapper.Framed {} := Engine.sound_start.framed
  refine ⟨TxWrapper.tidy_start, ?_, Engine.joined_restarted hframed TxWrapper.tidy_start hrested,
    words_restarted hframed TxWrapper.tidy_start hrested rfl rfl rfl rfl rfl, rfl, hrested.even⟩
  have h : (orderedReads mem cfg).Reachable {} := .init rfl
  exact ⟨engine_linked h .read, (ordered_of_reachable h).tallied, counted_of_reachable h,
    endWritten_of_reachable h, by rintro ⟨⟩⟩

/-- The ready output is right again behind an ordinary clock. -/
theorem Core.settled_eq (h : c.Core mem cfg) : c.settled = c := by
  rw [settled, ReadSystem.settled, Engine.settled_of_ready h.writing.sound.req.ready]

theorem Sound.next (h : c.Sound mem cfg) (ha : c.HostAnswers i)
    (hq : c.rst.hwChnlRstSig = true → c.Quiet i) : (c.next mem cfg i).Sound mem cfg := by
  have hrst : (c.next mem cfg i).rst = c.rst.next i.rst := by
    rw [Channel.next]
    split <;> rfl
  obtain ⟨honeClock, hover⟩ := h.oneClock.next (i := i.rst)
  cases hsig : c.rst.hwChnlRstSig with
  | true =>
    have hcore : c.Core mem cfg := h.late hsig ▸ h.core
    refine ⟨hcore.chnlRst hsig ha (hq hsig), by rw [hrst]; exact honeClock, fun hagain => ?_⟩
    rw [hrst, hover hsig] at hagain
    cases hagain
  | false =>
    have hcore : (c.next mem cfg i).Core mem cfg := by
      rw [next_settled hsig]
      exact h.core.next hsig ha
    exact ⟨by rw [hcore.settled_eq]; exact hcore, by rw [hrst]; exact honeClock,
      fun _ => hcore.settled_eq⟩

theorem sound_of_reachable (h : (channelsWhere mem cfg Quiet).Reachable c) :
    c.Sound mem cfg := by
  refine h.invariant ?_ ?_
  · rintro c rfl
    exact ⟨core_start, by rintro ⟨⟩, fun _ => rfl⟩
  · rintro c d hc ⟨i, ha, hq, rfl⟩
    exact hc.next ha hq

/-- A read whose words are all there is over, or is in the next clock. -/
theorem Sound.read_ends (h : c.Sound mem cfg) (hsig : c.rst.hwChnlRstSig = false)
    (hall : ((c.got ++ c.h2fFifo).flatMap wordDws).Perm (c.sys.stream mem)) :
    c.sys.engine.ready .read = true ∨ ∀ i, (c.next mem cfg i).sys.engine.ready .read = true := by
  have hreading := h.core.reading
  have hfifo : c.got ++ c.h2fFifo = c.sys.rx.written := h.core.fifo
  rw [hfifo] at hall
  cases hready : c.settled.sys.engine.ready .read with
  | false =>
    have hfinish := (hreading.counted.finish_iff hreading.tallied hreading.endWritten
      hreading.linked).mpr ⟨hready, hall.length_eq⟩
    right
    intro i
    rw [engine_next hsig]
    exact hreading.counted.ready_next (c.settled.readIn (c.withheld i)) hfinish
  | true =>
    cases hnow : c.sys.engine.ready .read with
    | true => exact Or.inl rfl
    | false =>
      -- the output is late
      right
      intro i
      have hidle : c.sys.engine.dma.req.h2fReqState = .idle :=
        of_decide_eq_true (h.core.writing.sound.req.ready.symm.trans hready)
      have hnone : c.sys.engine.h2fStart (c.engineIn i) = none := by
        rw [Engine.h2fStart, show c.sys.engine.dma.req.dmaOutH2fReady = false from hnow]
        rfl
      rw [Channel.next, if_neg (by rw [hsig]; decide)]
      show (c.sys.engine.dma.h2fReqSm (c.sys.engine.dmaIn cfg (c.engineIn i))).dmaOutH2fReady = true
      rw [DmaCtrl.h2fReqSm, hidle]
      simp [Engine.dmaIn, hnone]

theorem Sound.write_ends (h : c.Sound mem cfg) (hsig : c.rst.hwChnlRstSig = false)
    (hall : c.sys.engine.taken.pieces .write = c.sys.engine.pieces cfg .write)
    (hfinish : c.tx.sm.mwr64Finish = true) :
    c.sys.engine.ready .write = true ∨ ∀ i, (c.next mem cfg i).sys.engine.ready .write = true := by
  by_cases hready : c.sys.engine.ready .write = true
  · exact Or.inl hready
  · right
    intro i
    rw [engine_next hsig]
    exact (h.core.writing.write_ends (i := c.settled.engineIn (c.withheld i)) hall
      hfinish).resolve_left hready

/-- A clock of work. -/
theorem Sound.work_next (h : c.Sound mem cfg) (hi : c.Helped i) :
    (c.sys.engine.Still cfg → (c.next mem cfg i).sys.engine.Still cfg) ∧
      (¬ c.sys.engine.Still cfg →
        (c.next mem cfg i).sys.engine.work cfg < c.sys.engine.work cfg) := by
  have hread := h.core.joined .read
  have hwrite := h.core.joined .write
  have hnone : (c.settled.engineIn (c.withheld i)).h2f = none ∧
      (c.settled.engineIn (c.withheld i)).f2h = none := by
    refine ⟨?_, hi.noDma.2⟩
    show c.sys.engine.h2fStart (c.engineIn i) = none
    rw [Engine.h2fStart, show (c.engineIn i).h2f = none from hi.noDma.1, ite_self]
  have hvalid : c.settled.sys.engine.tx.sm.pcieTxState = .mwr64Qwn →
      (c.settled.engineIn (c.withheld i)).tx.f2hFifoValid = true := by
    intro hstate
    show (!c.f2hFifo.isEmpty && !c.rst.hwChnlRstSig) = true
    rw [hi.running, List.isEmpty_eq_false_iff.mpr (hi.payload hstate)]
    rfl
  rw [engine_next hi.running]
  exact ⟨fun hstill => Engine.Still.next hstill hread hwrite hi.noCpld hnone,
    fun hstill => Engine.work_decreases hread hwrite h.core.even hi.ready hi.noCpld hnone hvalid
      hstill⟩

/-- What was asked for goes out. -/
theorem Sound.goes_out (h : c.Sound mem cfg) (cs : ℕ → ChannelIn)
    (hcs : ∀ n, Helped (c.after mem cfg cs n) (cs n)) :
    ∃ n, (∀ k, (c.after mem cfg cs n).sys.engine.taken.pieces k =
        (c.after mem cfg cs n).sys.engine.pieces cfg k) ∧
      (c.after mem cfg cs n).sys.engine.ready .write = true := by
  induction hwork : c.sys.engine.work cfg using Nat.strong_induction_on generalizing c cs with
  | _ w ih =>
    have hi : c.Helped (cs 0) := hcs 0
    have hnext : (c.next mem cfg (cs 0)).Sound mem cfg := by
      refine h.next hi.answers fun hsig => ?_
      cases hi.running.symm.trans hsig
    obtain ⟨hstays, hless⟩ := h.work_next hi
    by_cases hstill : c.sys.engine.Still cfg
    · have htaken : ∀ k, c.sys.engine.taken.pieces k = c.sys.engine.pieces cfg k :=
        fun k => (h.core.joined k).taken_of_still hstill
      have hfinish : c.tx.sm.mwr64Finish = true := by
        have hframed : c.tx.Framed := h.core.writing.sound.framed
        exact hframed.finish_of_rst hstill.1 .write
      rcases h.write_ends hi.running (htaken .write) hfinish with hready | hready
      · exact ⟨0, htaken, hready⟩
      · exact ⟨1, fun k => (hnext.core.joined k).taken_of_still (hstays hstill), hready _⟩
    · obtain ⟨n, hn⟩ := ih _ (hwork ▸ hless hstill) hnext (fun k => cs (k + 1))
        (fun n => hcs (n + 1)) rfl
      exact ⟨n + 1, hn⟩

/-- **Initialisation.** When every reset comes at a quiet moment, the DMAs since the last reset, be
it by `rst_n` or by `hw_chnl_rst`, are served as they are behind `rst_n`. -/
theorem asFromReset_of_reachable (h : (channelsWhere mem cfg Quiet).Reachable c) :
    c.AsFromReset mem cfg := by
  have hsound := sound_of_reachable h
  obtain ⟨-, hreading, -, hwords, hfifo, -⟩ := hsound.core
  have hjoined := hsound.core.joined
  -- the ready output of the settled engine is set wherever that of the engine is
  have hready : ∀ k, c.sys.engine.ready k = true → c.settled.sys.engine.ready k = true := by
    intro k hready
    cases k with
    | read =>
      have hready' : c.sys.engine.dma.req.dmaOutH2fReady = true := hready
      show (decide _ || c.sys.engine.dma.req.dmaOutH2fReady) = true
      rw [hready', Bool.or_true]
    | write => exact hready
  have hwritten : c.got ++ c.h2fFifo = c.sys.rx.written := hfifo
  have horder := hreading.tallied.receiving.order
  obtain ⟨rest, hown⟩ := hreading.tallied.written_perm hreading.linked
  have hpart : ∃ rest, (c.got ++ c.h2fFifo).flatMap wordDws ++ rest = c.sys.rx.sent := by
    rw [hwritten]
    exact ⟨_, horder⟩
  refine ⟨fun k => (hjoined k).taken.1, fun k hk => (hjoined k).taken.2 (hready k hk),
    fun k hmissing i => (hjoined k).missing hmissing, hpart, ⟨rest, hown⟩, fun hk => ?_,
    fun hcareful => ?_, hsound.read_ends, hsound.write_ends, hsound.goes_out⟩
  · have hlen := hreading.counted.written_of_ready hreading.tallied hreading.endWritten
      hreading.linked (hready .read hk)
    have hlen' : (c.sys.rx.written.flatMap wordDws).length = (c.sys.stream mem).length := hlen
    obtain ⟨rest', hrest'⟩ := hpart
    have hsent := hown.length_eq
    have hsent' : (c.sys.rx.sent ++ rest).length = (c.sys.stream mem).length := hsent
    have hpartLen := congrArg List.length hrest'
    rw [List.length_append] at hsent' hpartLen
    rw [← hwritten] at hlen'
    obtain rfl : rest = [] := List.length_eq_zero_iff.mp (by omega)
    obtain rfl : rest' = [] := List.length_eq_zero_iff.mp (by omega)
    rw [List.append_nil] at hrest' hown
    rw [hrest']
    exact hown
  · obtain ⟨v, w, hstart, -, hfollows⟩ := hwords hcareful
    have htaken : Endpoint.takeAll ⟨.idle, w ++ c.given⟩
        (v ++ (c.sys.engine.accepted ++ c.tx.offered)) =
          some ⟨(c.writeRun cfg v w).phase, (c.writeRun cfg v w).waiting⟩ := by
      rw [← List.append_assoc]
      exact hfollows
    rw [Endpoint.takeAll_append (Endpoint.takeAll_arrive hstart c.given)] at htaken
    exact Endpoint.takeAll_of_append htaken

/-! ### A reset between reads, and one in the middle of a read -/

instance (c : Channel) (i : ChannelIn) : Decidable (c.HostAnswers i) :=
  inferInstanceAs (Decidable (_ ∧ _))

instance (c : Channel) (i : ChannelIn) : Decidable (c.Quiet i) :=
  decidable_of_iff (c.dma.recv.h2fRecvState = .idle ∧
    (c.tx.sm.pcieTxState ≠ .mwr64Qw1 ∧ c.tx.sm.pcieTxState ≠ .mwr64Qwn) ∧
    (c.tx.sm.pcieTxState = .rst →
      c.tx.arb.txSelFlag ≠ .doTxMrd64Req ∧ c.tx.arb.txSelFlag ≠ .doTxMwr64) ∧
    (c.tx.sm.pcieTxState = .rst ∧ c.tx.arb.txSelFlag = .doNothing ∨
        i.trnTdstRdyN = false ∧ (c.tx.sm.pcieTxState = .cpldQwLast ∨
          c.tx.sm.pcieTxState = .mwr64QwLast ∨ c.tx.sm.pcieTxState = .mrd64ReqQwLast) →
      c.csr.cpldStart = true ∨
        c.dma.req.mrd64ReqStart = false ∧ c.dma.f2h.mwr64Start = false))
    ⟨fun h => ⟨h.1, h.2.1, h.2.2.1, h.2.2.2⟩, fun h => ⟨h.recv, h.payload, h.taken, h.takes⟩⟩

/-- A run whose clocks all meet a condition. -/
def clocks (mem : ℕ → BitVec 32) (cfg : Cfg) (P : Channel → ChannelIn → Prop)
    [∀ c i, Decidable (P c i)] (l : List ChannelIn) : Option Channel :=
  l.foldlM (TransitionSystem.attempt
    (fun c i => c.HostAnswers i ∧ (c.rst.hwChnlRstSig = true → P c i))
    fun c i => some (c.next mem cfg i)) {}

theorem reachable_clocks {P : Channel → ChannelIn → Prop} [∀ c i, Decidable (P c i)]
    {l : List ChannelIn} (h : clocks mem cfg P l = some c) :
    (channelsWhere mem cfg P).Reachable c := by
  have hinit : (channelsWhere mem cfg P).Reachable {} := .init rfl
  refine hinit.attempts ?_ h
  intro c i d hclock hd
  exact ⟨i, hclock.1, hclock.2, (Option.some.inj hd).symm⟩

/-- A clock in which a read may start, a TLP of the host may come and an initialisation may be asked
for. -/
def sampleClock (h2f : Option Dma) (answer : Option Answer) (rstInitReqEn : Bool) : ChannelIn where
  trnTdstRdyN := false
  cfgCompleterId := 0
  gap := false
  trnRbarHitN := 0
  filler := 0
  answer := answer
  h2fFifoFull := false
  h2f := h2f
  dmaInH2fFifoAck := false
  f2h := none
  given := []
  bar0RdData := 0
  bramDout := 0
  rst := ⟨false, rstInitReqEn, true, false, false⟩

/-- Clocks in which nothing comes. -/
def quietClocks (n : ℕ) : List ChannelIn := List.replicate n (sampleClock none none false)

/-- A read of 8 bytes; its completion is the second one of the sample read. -/
def shortRead : Dma := ⟨0x1080, 8, rfl, by decide, rfl, by decide⟩

/-- A read of 24 bytes. -/
def longRead : Dma := ⟨0x2000, 24, rfl, Nat.succ_pos 23, rfl, by decide⟩

def longCompletion : Completion :=
  ⟨0x4A00000600000000, pieceDws sampleMem ⟨0x2000, 24⟩, by decide, by decide, by decide, by decide⟩

/-- An initialisation and the long read, whose request is number `j`. -/
def initThenRead (j : ℕ) : List ChannelIn :=
  sampleClock none none true :: quietClocks 2 ++ sampleClock (some longRead) none false ::
    quietClocks 10 ++ sampleClock none (some (.completion j longCompletion)) false ::
    quietClocks 12

/-- The short read is over before the initialisation. -/
def initBetween : List ChannelIn :=
  quietClocks 1 ++ sampleClock (some shortRead) none false :: quietClocks 10 ++
    sampleClock none (some (.completion 0 secondCompletion)) false :: quietClocks 10 ++
    initThenRead 1

set_option maxRecDepth 10000 in
/-- The long read behind the initialisation comes back whole. -/
theorem asFromReset_initBetween : ∃ c, clocks sampleMem sampleCfg Quiet initBetween = some c ∧
    c.AsFromReset sampleMem sampleCfg ∧ c.sys.engine.ready .read = true ∧
    ((c.got ++ c.h2fFifo).flatMap wordDws).Perm (longRead.dws sampleMem) := by
  have hrun : (clocks sampleMem sampleCfg Quiet initBetween).map
      (fun c => (c.sys.engine.ready .read, c.sys.stream sampleMem)) =
        some (true, longRead.dws sampleMem) := by
    decide +kernel
  obtain ⟨c, hc, hvalues⟩ := Option.map_eq_some_iff.mp hrun
  obtain ⟨hready, hstream⟩ := Prod.mk.inj hvalues
  have hfresh := asFromReset_of_reachable (reachable_clocks hc)
  exact ⟨c, hc, hfresh, hready, hstream ▸ hfresh.allWords hready⟩

/-- The short read waits for its completion, which never comes. -/
def initWithin : List ChannelIn :=
  quietClocks 1 ++ sampleClock (some shortRead) none false :: quietClocks 10 ++ initThenRead 1

set_option maxRecDepth 10000 in
/-- **A read that is cut off spoils the next one.** The long read gets its words, but the engine
still counts against the length of the short one, and the read does not end. -/
theorem read_spoiled : ∃ c, (channelsWhere sampleMem sampleCfg fun _ _ => True).Reachable c ∧
    ((c.got ++ c.h2fFifo).flatMap wordDws).Perm (longRead.dws sampleMem) ∧
    ¬ c.AsFromReset sampleMem sampleCfg := by
  have hrun : (clocks sampleMem sampleCfg (fun _ _ => True) initWithin).map
      (fun c => ((c.got ++ c.h2fFifo).flatMap wordDws, c.sys.stream sampleMem,
        c.rst.hwChnlRstSig, c.sys.engine.ready .read,
        (c.next sampleMem sampleCfg (sampleClock none none false)).sys.engine.ready .read)) =
      some (longRead.dws sampleMem, longRead.dws sampleMem, false, false, false) := by
    decide +kernel
  obtain ⟨c, hc, hvalues⟩ := Option.map_eq_some_iff.mp hrun
  simp only [Prod.mk.injEq] at hvalues
  obtain ⟨hwords, hstream, hsig, hready, hnext⟩ := hvalues
  have hperm : ((c.got ++ c.h2fFifo).flatMap wordDws).Perm (longRead.dws sampleMem) :=
    .of_eq hwords
  refine ⟨c, reachable_clocks hc, hperm, fun hfresh => ?_⟩
  rcases hfresh.readEnds hsig (by rw [hstream]; exact hperm) with hends | hends
  · exact absurd (hready.symm.trans hends) (by decide)
  · exact absurd (hnext.symm.trans (hends _)) (by decide)

end Channel

end PcieCsr

end LeapPlatforms
