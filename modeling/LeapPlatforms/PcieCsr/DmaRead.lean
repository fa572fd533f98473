import LeapPlatforms.PcieCsr.DmaSplitting
import LeapPlatforms.PcieCsr.RxPayload

/-!
# DMA reads

The host answers the read requests that the endpoint took with completions, and the receiver writes
their DWords to the FIFO as they come. Nothing looks at the tags: the DWords are in order when the
completions of one request come before those of the next.

## Main definitions

* `pieceDws`, `Dma.dws` — the DWords of host memory that are read
* `ReadSystem`, `ReadIn`, `ReadSystem.next` — the engine, the receiver and the host
* `Answers`, `InOrder`, `reads`, `orderedReads`
* `DmaCtrl.left` — the bytes that the engine still expects

## Main results

* `ReadSystem.Ordered`, `ordered_of_reachable`
* `ReadSystem.Counted`, `counted_of_reachable`
* `dma_read_order`, `completions_swapped`
-/

namespace LeapPlatforms

namespace PcieCsr

open Handing Tiling

/-! ### The host -/

/-- The DWords of a piece, given the DWord at each address. -/
def pieceDws (mem : ℕ → BitVec 32) (p : Piece) : List (BitVec 32) :=
  (List.range (p.size / 4)).map fun k => mem (p.start + 4 * k)

/-- The DWords of a DMA. -/
def Dma.dws (mem : ℕ → BitVec 32) (d : Dma) : List (BitVec 32) :=
  (List.range (d.len.toNat / 4)).map fun k => mem (d.paddr.toNat + 4 * k)

/-- The engine, the receiver, and what the host still has to send for each request that it got. -/
structure ReadSystem where
  engine : Engine := {}
  rx : RxSide := {}
  host : List (List (BitVec 32)) := []

/-- A TLP of the host: a completion for one of its requests, or another. -/
inductive Answer
  | completion (j : ℕ) (c : Completion)
  | other (o : OtherTlp)

/-- The TLP itself. -/
def Answer.tlp : Answer → HostTlp
  | .completion _ c => .completion c
  | .other o => .other o

/-- What surrounds the system in a clock. -/
structure ReadIn where
  tx : TxIn
  h2f : Option Dma
  f2h : Option Dma
  gap : Bool
  h2fFifoFull : Bool
  trnRbarHitN : BitVec 7
  filler : BitVec 32
  answer : Option Answer

namespace ReadSystem

variable (mem : ℕ → BitVec 32) (cfg : Cfg) (s : ReadSystem) (i : ReadIn)

def engineIn : EngineIn where
  tx := i.tx
  cpldRecvFinish := s.rx.rx.cpldRecvFinish
  cpldRecvLen := s.rx.rx.cpldRecvLen
  h2f := i.h2f
  f2h := i.f2h

def rxClock : RxClock where
  gap := i.gap
  h2fFifoFull := i.h2fFifoFull
  trnRbarHitN := i.trnRbarHitN
  filler := i.filler
  tlp := i.answer.map Answer.tlp

/-- What the host has still to send after the answer. -/
def answered : List (List (BitVec 32)) :=
  match s.rx.sending, i.answer with
  | .idle, some (.completion j c) => s.host.modify j (List.drop c.payload.length)
  | _, _ => s.host

/-- The read requests that the endpoint takes in the clock. -/
def newRequests : List Piece :=
  ((s.engine.next cfg (s.engineIn i)).taken.pieces .read).drop
    (s.engine.taken.pieces .read).length

/-- A rising clock edge. -/
def next : ReadSystem where
  engine := s.engine.next cfg (s.engineIn i)
  rx := s.rx.next (rxClock i)
  host := s.answered i ++ (s.newRequests cfg i).map (pieceDws mem)

/-- The DWords that were read from host memory for all DMAs, in address order. -/
def stream : List (BitVec 32) := s.engine.h2fDmas.flatMap (Dma.dws mem)

end ReadSystem

/-- A completion carries what comes next for its request. -/
def Answers (s : ReadSystem) (i : ReadIn) : Prop :=
  ∀ j c, i.answer = some (.completion j c) → c.payload <+: s.host.getD j []

/-- The completions of a request come before those of the next one, and none has 1024 DWords. -/
def InOrder (s : ReadSystem) (i : ReadIn) : Prop :=
  ∀ j c, i.answer = some (.completion j c) →
    (∀ k < j, s.host.getD k [] = []) ∧ c.payload.length < 1024

/-- Reads with completions that meet a condition. -/
def readsWhere (mem : ℕ → BitVec 32) (cfg : Cfg) (P : ReadSystem → ReadIn → Prop) :
    TransitionSystem ReadSystem where
  init s := s = {}
  step s t := ∃ i, P s i ∧ t = s.next mem cfg i

/-- Reads with completions in any order. -/
def reads (mem : ℕ → BitVec 32) (cfg : Cfg) : TransitionSystem ReadSystem :=
  readsWhere mem cfg Answers

/-- Reads with completions in the order of the requests. -/
def orderedReads (mem : ℕ → BitVec 32) (cfg : Cfg) : TransitionSystem ReadSystem :=
  readsWhere mem cfg fun s i => Answers s i ∧ InOrder s i

/-! ### The order of the DWords -/

variable {mem : ℕ → BitVec 32} {cfg : Cfg} {s t : ReadSystem} {i : ReadIn}

/-- What the host sends comes off the front of what it has to send. -/
theorem flatten_modify {α : Type*} {l : List (List α)} {j : ℕ} {p : List α}
    (hp : p <+: l.getD j []) (hfirst : ∀ k < j, l.getD k [] = []) :
    p ++ (l.modify j (List.drop p.length)).flatten = l.flatten := by
  induction l generalizing j with
  | nil =>
    obtain rfl : p = [] := List.prefix_nil.mp (by simpa using hp)
    simp
  | cons x l ih =>
    cases j with
    | zero =>
      obtain ⟨rest, rfl⟩ : p <+: x := hp
      simp
    | succ j =>
      obtain rfl : x = [] := hfirst 0 (Nat.succ_pos j)
      have hrest := ih (j := j) hp fun k hk => hfirst (k + 1) (Nat.succ_lt_succ hk)
      simpa using hrest

/-- What the endpoint took only grows. -/
theorem Engine.taken_append (cfg : Cfg) (s : Engine) (i : EngineIn) (k : Kind) :
    ∃ new, (s.next cfg i).taken.pieces k = s.taken.pieces k ++ new := by
  cases hready : i.tx.trnTdstRdyN with
  | true => exact ⟨[], by rw [Engine.taken_stall hready, List.append_nil]⟩
  | false =>
    obtain ⟨rest, hrest⟩ := s.took_append k
    exact ⟨rest, by rw [Engine.taken_next hready, hrest]⟩

/-- In whatever order the host answers, nothing is lost and nothing comes twice. -/
theorem perm_modify {α : Type*} {l : List (List α)} {j : ℕ} {p : List α} (hp : p <+: l.getD j []) :
    (p ++ (l.modify j (List.drop p.length)).flatten).Perm l.flatten := by
  induction l generalizing j with
  | nil =>
    obtain rfl : p = [] := List.prefix_nil.mp (by simpa using hp)
    simp
  | cons x l ih =>
    cases j with
    | zero =>
      obtain ⟨rest, rfl⟩ : p <+: x := hp
      simp
    | succ j =>
      have hrest := ih (j := j) hp
      have hswap : (p ++ (x ++ (l.modify j (List.drop p.length)).flatten)).Perm
          (x ++ (p ++ (l.modify j (List.drop p.length)).flatten)) := by
        rw [← List.append_assoc, ← List.append_assoc]
        exact List.perm_append_comm.append_right _
      exact hswap.trans (hrest.append_left x)

/-- Completions are shorter than 1024 DWords. -/
def ShortAnswers (i : ReadIn) : Prop :=
  ∀ j c, i.answer = some (.completion j c) → c.payload.length < 1024

theorem InOrder.short (h : InOrder s i) : ShortAnswers i := fun j c hc => (h j c hc).2

theorem short_next (h : s.rx.Short) (hr : s.rx.Receiving) (hi : ShortAnswers i) :
    (s.rx.next (ReadSystem.rxClock i)).Short := by
  refine (h.load fun p hp => ?_).clock hr.load
  -- a completion of fewer than 1024 DWords has no code 0
  intro h0
  obtain ⟨a, ha', hp'⟩ := Option.map_eq_some_iff.mp hp
  cases a with
  | completion j c =>
    obtain rfl : c = p := HostTlp.completion.inj hp'
    have hlt := hi j c ha'
    have hlen := c.len
    rw [h0] at hlen
    have : (1024 : ℕ) = c.payload.length := hlen
    omega
  | other o => cases hp'

/-- What came to the interface and what the host still has to send are the DWords of the requests,
in some order. -/
structure ReadSystem.Tallied (mem : ℕ → BitVec 32) (s : ReadSystem) : Prop where
  receiving : s.rx.Receiving
  short : s.rx.Short
  tally : (s.rx.sent ++ s.host.flatten).Perm
    ((s.engine.taken.pieces .read).flatMap (pieceDws mem))

/-- The DWords of a clock come from what the host has to send. -/
theorem ReadSystem.loaded_perm (ha : Answers s i) :
    (s.rx.loaded (rxClock i) ++ (s.answered i).flatten).Perm s.host.flatten := by
  rw [RxSide.loaded, ReadSystem.answered]
  cases hs : s.rx.sending with
  | idle =>
    cases hi : i.answer with
    | none => simp [ReadSystem.rxClock, hi]
    | some a =>
      cases a with
      | completion j c =>
        simp only [ReadSystem.rxClock, hi, Option.map_some, Answer.tlp]
        exact perm_modify (ha j c hi)
      | other o => simp [ReadSystem.rxClock, hi, Answer.tlp]
  | _ => simp

theorem ReadSystem.newRequests_eq (mem : ℕ → BitVec 32) (cfg : Cfg) (s : ReadSystem)
    (i : ReadIn) : ∃ new, s.newRequests cfg i = new ∧
    (s.next mem cfg i).engine.taken.pieces .read = s.engine.taken.pieces .read ++ new := by
  obtain ⟨new, hnew⟩ := Engine.taken_append cfg s.engine (s.engineIn i) .read
  exact ⟨new, by rw [ReadSystem.newRequests, hnew, List.drop_left], hnew⟩

theorem ReadSystem.Tallied.next (h : s.Tallied mem) (ha : Answers s i) (hi : ShortAnswers i) :
    (s.next mem cfg i).Tallied mem := by
  refine ⟨h.receiving.next, short_next h.short h.receiving hi, ?_⟩
  obtain ⟨new, hrequests, hnew⟩ := s.newRequests_eq mem cfg i
  rw [hnew, List.flatMap_append]
  show (s.rx.sent ++ s.rx.loaded (rxClock i) ++
    (s.answered i ++ (s.newRequests cfg i).map (pieceDws mem)).flatten).Perm _
  rw [List.flatten_append, hrequests, ← List.flatMap_def, ← List.append_assoc, List.append_assoc
    s.rx.sent]
  exact (((loaded_perm ha).append_left _).trans h.tally).append_right _

/-- What came to the interface and what the host still has to send are the DWords of the requests,
in order. -/
structure ReadSystem.Ordered (mem : ℕ → BitVec 32) (s : ReadSystem) : Prop where
  receiving : s.rx.Receiving
  short : s.rx.Short
  order : s.rx.sent ++ s.host.flatten = (s.engine.taken.pieces .read).flatMap (pieceDws mem)

theorem ReadSystem.loaded_append (h : s.rx.sent ++ s.host.flatten =
      (s.engine.taken.pieces .read).flatMap (pieceDws mem)) (ha : Answers s i) (ho : InOrder s i) :
    s.rx.sent ++ s.rx.loaded (rxClock i) ++ (s.answered i).flatten =
      (s.engine.taken.pieces .read).flatMap (pieceDws mem) := by
  rw [← h, List.append_assoc]
  congr 1
  rw [RxSide.loaded, ReadSystem.answered]
  cases hs : s.rx.sending with
  | idle =>
    cases hi : i.answer with
    | none => simp [ReadSystem.rxClock, hi]
    | some a =>
      cases a with
      | completion j c =>
        simp only [ReadSystem.rxClock, hi, Option.map_some, Answer.tlp]
        exact flatten_modify (ha j c hi) (ho j c hi).1
      | other o => simp [ReadSystem.rxClock, hi, Answer.tlp]
  | _ => rfl

theorem ReadSystem.Ordered.tallied (h : s.Ordered mem) : s.Tallied mem :=
  ⟨h.receiving, h.short, by rw [h.order]⟩

theorem ReadSystem.Ordered.next (h : s.Ordered mem) (ha : Answers s i) (ho : InOrder s i) :
    (s.next mem cfg i).Ordered mem := by
  refine ⟨h.receiving.next, short_next h.short h.receiving ho.short, ?_⟩
  obtain ⟨new, hrequests, hnew⟩ := s.newRequests_eq mem cfg i
  rw [hnew, List.flatMap_append]
  show s.rx.sent ++ s.rx.loaded (rxClock i) ++
    (s.answered i ++ (s.newRequests cfg i).map (pieceDws mem)).flatten = _
  rw [List.flatten_append, ← List.append_assoc, loaded_append h.order ha ho, hrequests,
    ← List.flatMap_def]

/-! ### Requests and DWords -/

theorem length_pieceDws (p : Piece) : (pieceDws mem p).length = p.size / 4 := by
  rw [pieceDws, List.length_map, List.length_range]

theorem Dma.length_dws (d : Dma) : 4 * (d.dws mem).length = d.len.toNat := by
  have hmod := d.quadwords
  rw [Dma.dws, List.length_map, List.length_range]
  omega

/-- The pieces of a rest carry its DWords. -/
theorem flatMap_pieces {size : Size} {addr : BitVec 64} {rem : BitVec 32} (h : Pending addr rem) :
    (cut size.bytes addr.toNat rem.toNat).flatMap (pieceDws mem) =
      (List.range (rem.toNat / 4)).map fun k => mem (addr.toNat + 4 * k) := by
  have hsize := size.bytes_mod
  have hrem := h.quadwords
  exact flatMap_cut mem (Nat.succ_pos 3) size.bytes_pos (by omega) (by omega)

/-- The requests of all DMAs carry the DWords of all DMAs. -/
theorem ReadSystem.stream_eq (mem : ℕ → BitVec 32) (cfg : Cfg) (s : ReadSystem) :
    (s.engine.pieces cfg .read).flatMap (pieceDws mem) = s.stream mem := by
  rw [Engine.pieces, List.flatMap_assoc, ReadSystem.stream]
  refine List.flatMap_congr fun d _ => ?_
  exact flatMap_pieces d.pending

variable {e : Engine}

/-- What was taken, what is under way and what is still to be asked for are all requests. -/
theorem Engine.taken_todo (h : e.Linked cfg .read) :
    ∃ mid, e.taken.pieces .read ++ mid ++ (e.dma.requester cfg .read).todo =
      e.pieces cfg .read := by
  obtain ⟨g, hg, hands⟩ := h
  obtain ⟨mid, hmid⟩ := Handover.served_append_todo hg
  obtain ⟨rest, hrest⟩ := e.took_append .read
  rw [hands.served, hands.requester, hands.asked, ← hrest] at hmid
  exact ⟨rest ++ mid, by rw [← hmid]; simp only [List.append_assoc]⟩

/-- When all requests were taken, the engine has seen the end of the last one, or is about to. -/
theorem Engine.through (h : e.Linked cfg .read)
    (hall : e.taken.pieces .read = e.pieces cfg .read) :
    e.dma.req.h2fReqState = .idle ∨ e.dma.req.h2fReqState = .dma3 ∨
      e.dma.req.h2fReqState = .dma2 ∧ e.dma.req.h2fReqFinish = true ∧
        e.tx.sm.mrd64ReqFinish = true := by
  obtain ⟨g, hg, hands⟩ := h
  obtain ⟨rest, hrest⟩ := e.took_append .read
  obtain ⟨more, hmore⟩ := Handover.served_append hg
  have hserved : g.served = g.asked := by
    rw [hands.served, hands.asked, ← hrest, hall, List.append_assoc] at hmore
    have hnil := List.append_right_eq_self.mp hmore
    rw [hands.served, hands.asked, ← hrest, hall, (List.append_eq_nil_iff.mp hnil).1,
      List.append_nil]
  obtain ⟨htodo, hphase, hserver⟩ := Handover.of_served_eq hg hserved
  rw [hands.requester] at htodo hphase
  rw [hands.server] at hserver
  -- a request in its last quadword is not taken yet
  have hother : e.tx.server .read = .other := by
    rcases hserver with h' | h'
    · exact h'
    · have hlast : e.tx.sm.pcieTxState = .mrd64ReqQwLast := by
        rw [TxWrapper.server] at h'
        cases hstate : e.tx.sm.pcieTxState with
        | rst =>
          rw [hstate] at h'
          simp only at h'
          split at h' <;> cases h'
        | mrd64ReqQwLast => rfl
        | _ => simp [hstate] at h'
      obtain ⟨p, hp⟩ := hands.took.last hlast rfl
      rw [← hands.served, hserved, hands.asked, hall] at hp
      cases List.append_right_eq_self.mp hp
  have hfinish : e.tx.sm.mrd64ReqFinish = true := by
    have hfinish := hands.sound.framed.finish .read
    rw [hother] at hfinish
    exact hfinish
  rw [DmaCtrl.requester] at htodo hphase
  cases hstate : e.dma.req.h2fReqState with
  | idle => exact .inl rfl
  | dma1 =>
    rw [hstate] at hphase
    exact absurd rfl hphase
  | dma2 =>
    rw [hstate] at htodo
    refine .inr (.inr ⟨rfl, ?_, hfinish⟩)
    by_contra hlast
    simp only [if_neg hlast] at htodo
    exact cut_ne_nil htodo
  | dma3 => exact .inr (.inl rfl)

/-! ### Counting DWords -/

/-- The bytes that the engine still expects. -/
def DmaCtrl.left (s : DmaCtrl) : ℕ :=
  if s.req.h2fRecvStart then s.req.h2fReqLenRem.toNat
  else if s.recv.h2fRecvState = .st1 then s.recv.h2fRecvLenRem.toNat else 0

/-- What the two machines of a read say about each other. -/
structure DmaCtrl.Steady (s : DmaCtrl) : Prop where
  /-- Counting starts in the first clock of a DMA. -/
  start : s.req.h2fRecvStart = true → s.req.h2fReqState = .dma1 ∧ s.recv.h2fRecvState = .idle
  counting : s.recv.h2fRecvState = .st1 →
    0 < s.recv.h2fRecvLenRem.toNat ∧ s.recv.h2fRecvFinish = false
  idle : s.req.h2fReqState = .idle → s.left = 0
  /-- The end of a DMA finds the engine waiting for it. -/
  finish : s.recv.h2fRecvFinish = true → s.req.h2fReqState = .dma3
  /-- Nobody waits for an end that was over. -/
  rested : s.left = 0 → s.recv.h2fRecvFinish = false → s.req.h2fReqState = .idle

/-- The engine counts what comes, and the last completion finds it waiting for the end. -/
structure ReadSystem.Counted (mem : ℕ → BitVec 32) (s : ReadSystem) : Prop where
  steady : s.engine.dma.Steady
  /-- What is expected has not come, or its end was not shown yet. -/
  count : s.engine.dma.left + 4 * s.rx.sent.length =
    4 * (s.stream mem).length + 4 * s.rx.uncounted
  waiting : 0 < s.rx.rx.opened → s.rx.sent.length = (s.stream mem).length →
    s.engine.dma.req.h2fReqState = .dma3

/-- The DWords of the end that is shown. -/
def RxWrapper.shown (s : RxWrapper) : ℕ := if s.cpldRecvFinish then dwords s.cpldRecvLen else 0

theorem RxSide.shown_le (s : RxSide) : s.rx.shown ≤ s.uncounted := by
  rw [uncounted, RxWrapper.opened, RxWrapper.shown]
  omega

theorem RxWrapper.shown_eq_zero {s : RxWrapper} : s.shown = 0 ↔ s.cpldRecvFinish = false := by
  have hpos := dwords_pos s.cpldRecvLen
  rw [shown]
  cases s.cpldRecvFinish with
  | false => simp
  | true => simp [hpos.ne']

theorem DmaCtrl.left_of_start {s : DmaCtrl} (h : s.req.h2fRecvStart = true) :
    s.left = s.req.h2fReqLenRem.toNat := by
  rw [left, h]
  rfl

theorem DmaCtrl.left_of_counting {s : DmaCtrl} (h : s.Steady) (hst : s.recv.h2fRecvState = .st1) :
    s.left = s.recv.h2fRecvLenRem.toNat := by
  have hstart : ¬ s.req.h2fRecvStart = true := by
    intro hstart
    exact absurd ((h.start hstart).2.symm.trans hst) (by decide)
  rw [left, if_neg hstart, if_pos hst]

theorem DmaCtrl.left_of_rest {s : DmaCtrl} (hstart : s.req.h2fRecvStart = false)
    (hrecv : s.recv.h2fRecvState = .idle) : s.left = 0 := by
  rw [left, hstart, hrecv]
  rfl

/-- Nothing is expected when there is neither a start nor a count. -/
theorem DmaCtrl.Steady.rest {s : DmaCtrl} (h : s.Steady) (hs : s.req.Sound) (hleft : s.left = 0) :
    s.req.h2fRecvStart = false ∧ s.recv.h2fRecvState = .idle := by
  refine ⟨?_, ?_⟩
  · by_contra hstart
    have hstart' : s.req.h2fRecvStart = true := by simpa using hstart
    have hreq : s.req.mrd64ReqStart = true := by
      rw [hs.start, (h.start hstart').1]
      rfl
    have hpos := (hs.pending hreq).positive
    rw [left_of_start hstart'] at hleft
    omega
  · cases hst : s.recv.h2fRecvState with
    | idle => rfl
    | st1 =>
      have hpos := (h.counting hst).1
      rw [left_of_counting h hst] at hleft
      omega

namespace ReadSystem

/-- The DWords that were sent were asked for. -/
theorem Tallied.sent_le (h : s.Tallied mem) :
    s.rx.sent.length ≤ ((s.engine.taken.pieces .read).flatMap (pieceDws mem)).length := by
  rw [← h.tally.length_eq, List.length_append]
  exact Nat.le_add_right _ _

theorem taken_le (mem : ℕ → BitVec 32) (he : s.engine.Linked cfg .read) :
    ((s.engine.taken.pieces .read).flatMap (pieceDws mem)).length ≤ (s.stream mem).length := by
  obtain ⟨mid, hmid⟩ := Engine.taken_todo he
  rw [← stream_eq mem cfg, ← hmid, List.flatMap_append, List.flatMap_append,
    List.length_append, List.length_append]
  omega

/-- At the start of a DMA nothing of it was asked for. -/
theorem taken_start (mem : ℕ → BitVec 32) (he : s.engine.Linked cfg .read)
    (hstate : s.engine.dma.req.h2fReqState = .dma1) :
    4 * ((s.engine.taken.pieces .read).flatMap (pieceDws mem)).length +
      s.engine.dma.req.h2fReqLenRem.toNat ≤ 4 * (s.stream mem).length := by
  have hreq := he.sound.req
  have hpending := hreq.pending (by rw [hreq.start, hstate]; rfl)
  obtain ⟨mid, hmid⟩ := Engine.taken_todo he
  have htodo : ((s.engine.dma.requester cfg .read).todo.flatMap (pieceDws mem)).length =
      s.engine.dma.req.h2fReqLenRem.toNat / 4 := by
    rw [DmaCtrl.requester, hstate]
    simp only [flatMap_pieces hpending, List.length_map, List.length_range]
  have hmod := hpending.quadwords
  rw [← stream_eq mem cfg, ← hmid, List.flatMap_append, List.flatMap_append,
    List.length_append, List.length_append, htodo]
  omega

/-- Requests with all DWords are all requests. -/
theorem taken_eq (mem : ℕ → BitVec 32) (he : s.engine.Linked cfg .read)
    (hlen : ((s.engine.taken.pieces .read).flatMap (pieceDws mem)).length = (s.stream mem).length) :
    s.engine.taken.pieces .read = s.engine.pieces cfg .read := by
  obtain ⟨mid, hmid⟩ := Engine.taken_todo he
  have hrest :
    ((mid ++ (s.engine.dma.requester cfg .read).todo).flatMap (pieceDws mem)).length = 0 := by
    have hall := congrArg (fun l => (l.flatMap (pieceDws mem)).length) hmid
    simp only [List.flatMap_append, List.length_append] at hall ⊢
    have hstream := congrArg List.length (stream_eq mem cfg s)
    omega
  have hnil : mid ++ (s.engine.dma.requester cfg .read).todo = [] := by
    rw [List.eq_nil_iff_forall_not_mem]
    intro p hp
    -- a request has at least one DWord
    have hmem : p ∈ s.engine.pieces cfg .read := by
      rw [← hmid, List.append_assoc]
      exact List.mem_append_right _ hp
    obtain ⟨d, -, hd⟩ := List.mem_flatMap.mp hmem
    have hunit : 4 ≤ p.size := by
      have hsize := (cfg.size .read).bytes_mod
      have hquad := d.quadwords
      exact unit_le_of_mem_cut (cfg.size .read).bytes_pos (by omega) d.positive (by omega) hd
    have hnone := List.flatMap_eq_nil_iff.mp (List.length_eq_zero_iff.mp hrest) p hp
    have hzero := congrArg List.length hnone
    rw [length_pieceDws, List.length_nil] at hzero
    omega
  rw [← hmid, List.append_assoc, hnil, List.append_nil]

/-- Nothing is expected, so nothing is under way. -/
theorem Counted.quiet (h : s.Counted mem) (ho : s.Tallied mem)
    (he : s.engine.Linked cfg .read) (hleft : s.engine.dma.left = 0) :
    s.rx.uncounted = 0 ∧ s.rx.rx.cpldRecvFinish = false ∧
      s.rx.sent.length = (s.stream mem).length := by
  have hcount := h.count
  have hsent := ho.sent_le
  have htaken := taken_le mem he
  have hshown := s.rx.shown_le
  exact ⟨by omega, RxWrapper.shown_eq_zero.mp (by omega), by omega⟩

/-- Nothing of a DMA comes in its first clock. -/
theorem Counted.quiet_start (h : s.Counted mem) (ho : s.Tallied mem)
    (he : s.engine.Linked cfg .read) (hstart : s.engine.dma.req.h2fRecvStart = true) :
    s.rx.rx.cpldRecvFinish = false := by
  have hcount := h.count
  have hsent := ho.sent_le
  have htaken := taken_start mem he (h.steady.start hstart).1
  have hshown := s.rx.shown_le
  rw [DmaCtrl.left_of_start hstart] at hcount
  exact RxWrapper.shown_eq_zero.mp (by omega)

/-- What is shown is still expected. -/
theorem Counted.shown_le_left (h : s.Counted mem) (ho : s.Tallied mem)
    (he : s.engine.Linked cfg .read) : 4 * s.rx.rx.shown ≤ s.engine.dma.left := by
  have hcount := h.count
  have hsent := ho.sent_le
  have htaken := taken_le mem he
  have hshown := s.rx.shown_le
  omega

/-! ### A clock of the engine -/

/-- The DMAs that start in a clock. -/
def started (s : ReadSystem) (i : ReadIn) : List Dma := (s.engine.h2fStart (s.engineIn i)).toList

theorem stream_next : (s.next mem cfg i).stream mem =
    s.stream mem ++ (s.started i).flatMap (Dma.dws mem) := List.flatMap_append

theorem sent_next : (s.next mem cfg i).rx.sent.length =
    s.rx.sent.length + (s.rx.loaded (rxClock i)).length := List.length_append

/-- The DWords that are shown are counted, and a DMA that starts is expected. -/
def CountStep (mem : ℕ → BitVec 32) (cfg : Cfg) (s : ReadSystem) (i : ReadIn) : Prop :=
  (s.next mem cfg i).engine.dma.Steady ∧
    (s.next mem cfg i).engine.dma.left + 4 * s.rx.rx.shown =
      s.engine.dma.left + 4 * ((s.started i).flatMap (Dma.dws mem)).length

/-- The machine that counts, without a start and without a count. -/
theorem recv_rest (mem : ℕ → BitVec 32) (cfg : Cfg) (i : ReadIn)
    (hstart : s.engine.dma.req.h2fRecvStart = false)
    (hrecv : s.engine.dma.recv.h2fRecvState = .idle) : (s.next mem cfg i).engine.dma.recv =
      { s.engine.dma.recv with h2fRecvFinish := false } := by
  show s.engine.dma.h2fRecvSm (s.engine.dmaIn cfg (s.engineIn i)) = _
  rw [DmaCtrl.h2fRecvSm, hrecv, hstart]
  simp [Engine.dmaIn]

/-- The engine is idle: a DMA starts or none does. -/
theorem countStep_idle (hsteady : s.engine.dma.Steady) (hs : s.engine.dma.req.Sound)
    (hstate : s.engine.dma.req.h2fReqState = .idle) (hquiet : s.rx.rx.cpldRecvFinish = false) :
    s.CountStep mem cfg i := by
  have hleft := hsteady.idle hstate
  obtain ⟨hstart, hrecv⟩ := hsteady.rest hs hleft
  have hshown := RxWrapper.shown_eq_zero.mpr hquiet
  have hreq : (s.next mem cfg i).engine.dma.req =
      s.engine.dma.h2fReqSm (s.engine.dmaIn cfg (s.engineIn i)) := rfl
  have hrecv' := recv_rest mem cfg i hstart hrecv
  rw [CountStep, started, hshown, hleft]
  cases hd : s.engine.h2fStart (s.engineIn i) with
  | none =>
    have hreq' : (s.next mem cfg i).engine.dma.req = {} := by
      rw [hreq, DmaCtrl.h2fReqSm, hstate]
      simp [Engine.dmaIn, hd]
    have hleft' : (s.next mem cfg i).engine.dma.left = 0 := by
      refine DmaCtrl.left_of_rest ?_ ?_
      · rw [hreq']
      · rw [hrecv', hrecv]
    refine ⟨⟨?_, ?_, fun _ => hleft', ?_, ?_⟩, ?_⟩
    · rw [hreq']
      intro h
      cases h
    · rw [hrecv', hrecv]
      intro h
      cases h
    · rw [hrecv']
      intro h
      cases h
    · rw [hreq']
      exact fun _ _ => rfl
    · rw [hleft']
      rfl
  | some d =>
    have hreq' : (s.next mem cfg i).engine.dma.req =
        ⟨false, true, true, d.paddr, d.len, false, .dma1⟩ := by
      rw [hreq, DmaCtrl.h2fReqSm, hstate]
      simp [Engine.dmaIn, hd]
    have hleft' : (s.next mem cfg i).engine.dma.left = d.len.toNat := by
      rw [DmaCtrl.left_of_start (by rw [hreq']), hreq']
    have hpos := d.positive
    refine ⟨⟨?_, ?_, ?_, ?_, ?_⟩, ?_⟩
    · rw [hreq', hrecv']
      exact fun _ => ⟨rfl, hrecv⟩
    · rw [hrecv', hrecv]
      intro h
      cases h
    · rw [hreq']
      intro h
      cases h
    · rw [hrecv']
      intro h
      cases h
    · intro h
      omega
    · rw [hleft', Option.toList_some, List.flatMap_singleton, d.length_dws]
      exact Nat.add_comm _ _

/-- While a DMA is under way none starts, and the start of counting is over. -/
theorem busy_next (mem : ℕ → BitVec 32) (cfg : Cfg) (i : ReadIn)
    (hsteady : s.engine.dma.Steady) (hs : s.engine.dma.req.Sound)
    (hstate : s.engine.dma.req.h2fReqState ≠ .idle) :
    s.started i = [] ∧ (s.next mem cfg i).engine.dma.req.h2fRecvStart = false := by
  have hready := hs.ready
  rw [decide_eq_false hstate] at hready
  refine ⟨?_, ?_⟩
  · rw [started, Engine.h2fStart, hready]
    rfl
  · have hreq : (s.next mem cfg i).engine.dma.req =
        s.engine.dma.h2fReqSm (s.engine.dmaIn cfg (s.engineIn i)) := rfl
    have hold : s.engine.dma.req.h2fReqState ≠ .dma1 → s.engine.dma.req.h2fRecvStart = false := by
      intro hne
      by_contra h
      exact hne (hsteady.start (by simpa using h)).1
    rw [hreq, DmaCtrl.h2fReqSm]
    cases hst : s.engine.dma.req.h2fReqState with
    | idle => exact absurd hst hstate
    | dma1 =>
      simp only [Engine.dmaIn, Bool.false_eq_true, if_false]
      grind
    | dma2 =>
      have hfalse := hold (by rw [hst]; decide)
      simp only [Engine.dmaIn, Bool.false_eq_true, if_false]
      grind
    | dma3 =>
      have hfalse := hold (by rw [hst]; decide)
      simp only [Engine.dmaIn, Bool.false_eq_true, if_false]
      grind

/-- Counting starts. -/
theorem countStep_start (hsteady : s.engine.dma.Steady) (hs : s.engine.dma.req.Sound)
    (hstart : s.engine.dma.req.h2fRecvStart = true) (hquiet : s.rx.rx.cpldRecvFinish = false) :
    s.CountStep mem cfg i := by
  obtain ⟨hdma1, hrecv⟩ := hsteady.start hstart
  have hne : s.engine.dma.req.h2fReqState ≠ .idle := by
    rw [hdma1]
    decide
  obtain ⟨hstarted, hstart'⟩ := busy_next mem cfg i hsteady hs hne
  have hpos := (hs.pending (by rw [hs.start, hdma1]; rfl)).positive
  have hshown := RxWrapper.shown_eq_zero.mpr hquiet
  have hrecv' : (s.next mem cfg i).engine.dma.recv = ⟨false, s.engine.dma.req.h2fReqLenRem, .st1⟩ := by
    show s.engine.dma.h2fRecvSm (s.engine.dmaIn cfg (s.engineIn i)) = _
    rw [DmaCtrl.h2fRecvSm, hrecv, hstart]
    simp [Engine.dmaIn]
  have hleft' : (s.next mem cfg i).engine.dma.left = s.engine.dma.req.h2fReqLenRem.toNat := by
    rw [DmaCtrl.left, hstart', hrecv']
    rfl
  have hbusy : (s.next mem cfg i).engine.dma.req.h2fReqState ≠ .idle := by
    show (s.engine.dma.h2fReqSm (s.engine.dmaIn cfg (s.engineIn i))).h2fReqState ≠ .idle
    rw [DmaCtrl.h2fReqSm, hdma1]
    simp only [Engine.dmaIn, Bool.false_eq_true, if_false]
    grind
  refine ⟨⟨?_, ?_, ?_, ?_, ?_⟩, ?_⟩
  · rw [hstart']
    intro h
    cases h
  · rw [hrecv']
    exact fun _ => ⟨hpos, rfl⟩
  · exact fun h => absurd h hbusy
  · rw [hrecv']
    intro h
    cases h
  · intro h
    omega
  · rw [hleft', hstarted, hshown, DmaCtrl.left_of_start hstart]
    rfl

/-- The end of a DMA was over, or is shown to the machine that waits for it. -/
theorem countStep_rest (hsteady : s.engine.dma.Steady) (hs : s.engine.dma.req.Sound)
    (hleft : s.engine.dma.left = 0) (hbusy : s.engine.dma.req.h2fReqState ≠ .idle)
    (hquiet : s.rx.rx.cpldRecvFinish = false) : s.CountStep mem cfg i := by
  obtain ⟨hstart, hrecv⟩ := hsteady.rest hs hleft
  obtain ⟨hstarted, hstart'⟩ := busy_next mem cfg i hsteady hs hbusy
  have hshown := RxWrapper.shown_eq_zero.mpr hquiet
  have hrecv' := recv_rest mem cfg i hstart hrecv
  have hfinish : s.engine.dma.recv.h2fRecvFinish = true := by
    by_contra h
    exact hbusy (hsteady.rested hleft (by simpa using h))
  have hidle' : (s.next mem cfg i).engine.dma.req.h2fReqState = .idle := by
    show (s.engine.dma.h2fReqSm (s.engine.dmaIn cfg (s.engineIn i))).h2fReqState = .idle
    rw [DmaCtrl.h2fReqSm, hsteady.finish hfinish]
    simp [Engine.dmaIn, hfinish]
  have hleft' : (s.next mem cfg i).engine.dma.left = 0 := by
    refine DmaCtrl.left_of_rest hstart' ?_
    rw [hrecv', hrecv]
  refine ⟨⟨?_, ?_, fun _ => hleft', ?_, fun _ _ => hidle'⟩, ?_⟩
  · rw [hstart']
    intro h
    cases h
  · rw [hrecv', hrecv]
    intro h
    cases h
  · rw [hrecv']
    intro h
    cases h
  · rw [hleft', hleft, hstarted, hshown]
    rfl

/-- The number of bytes of a completion with less than 1024 DWords. -/
theorem toNat_bytes {len : BitVec 10} (h : len ≠ 0) :
    ((len ++ 0b00#2).setWidth 32).toNat = 4 * dwords len := by
  have hlt := len.isLt
  have happend : (len ++ 0b00#2).toNat = 4 * len.toNat := by
    rw [BitVec.toNat_append, Nat.shiftLeft_eq]
    simp [Nat.mul_comm]
  rw [BitVec.toNat_setWidth, happend, dwords, if_neg h]
  exact Nat.mod_eq_of_lt (by omega)

/-- A completion is counted, or the engine waits. -/
theorem recv_counting (mem : ℕ → BitVec 32) (cfg : Cfg) (i : ReadIn)
    (hrecv : s.engine.dma.recv.h2fRecvState = .st1)
    (hlen : s.rx.rx.cpldRecvFinish = true → s.rx.rx.cpldRecvLen ≠ 0)
    (hle : 4 * s.rx.rx.shown ≤ s.engine.dma.recv.h2fRecvLenRem.toNat)
    (hpos : 0 < s.engine.dma.recv.h2fRecvLenRem.toNat) :
    (4 * s.rx.rx.shown = s.engine.dma.recv.h2fRecvLenRem.toNat ∧
      (s.next mem cfg i).engine.dma.recv =
        { s.engine.dma.recv with h2fRecvFinish := true, h2fRecvState := .idle }) ∨
    ∃ rem, 0 < rem.toNat ∧
      rem.toNat + 4 * s.rx.rx.shown = s.engine.dma.recv.h2fRecvLenRem.toNat ∧
      (s.next mem cfg i).engine.dma.recv = { s.engine.dma.recv with h2fRecvLenRem := rem } := by
  have hnext : (s.next mem cfg i).engine.dma.recv =
      s.engine.dma.h2fRecvSm (s.engine.dmaIn cfg (s.engineIn i)) := rfl
  by_cases hfinish : s.rx.rx.cpldRecvFinish = true
  · have hbytes := toNat_bytes (hlen hfinish)
    have hshown : s.rx.rx.shown = dwords s.rx.rx.cpldRecvLen := by
      rw [RxWrapper.shown, hfinish]
      rfl
    rw [← hshown] at hbytes
    by_cases hlast : s.engine.dma.recv.h2fRecvLenRem = (s.rx.rx.cpldRecvLen ++ 0b00#2).setWidth 32
    · refine .inl ⟨?_, ?_⟩
      · rw [hlast, hbytes]
      · rw [hnext, DmaCtrl.h2fRecvSm, hrecv]
        simp [Engine.dmaIn, engineIn, hfinish, hlast]
    · have hne : s.engine.dma.recv.h2fRecvLenRem.toNat ≠ 4 * s.rx.rx.shown := by
        intro h
        exact hlast (BitVec.eq_of_toNat_eq (h.trans hbytes.symm))
      have hsub : (s.engine.dma.recv.h2fRecvLenRem -
          (s.rx.rx.cpldRecvLen ++ 0b00#2).setWidth 32).toNat =
          s.engine.dma.recv.h2fRecvLenRem.toNat - 4 * s.rx.rx.shown := by
        rw [BitVec.toNat_sub_of_le (by rw [BitVec.le_def, hbytes]; exact hle), hbytes]
      refine .inr ⟨s.engine.dma.recv.h2fRecvLenRem -
        (s.rx.rx.cpldRecvLen ++ 0b00#2).setWidth 32, by omega, by omega, ?_⟩
      rw [hnext, DmaCtrl.h2fRecvSm, hrecv]
      simp [Engine.dmaIn, engineIn, hfinish, hlast]
  · have hshown := RxWrapper.shown_eq_zero.mpr (by simpa using hfinish)
    refine .inr ⟨s.engine.dma.recv.h2fRecvLenRem, hpos, by omega, ?_⟩
    rw [hnext, DmaCtrl.h2fRecvSm, hrecv]
    simp only [Engine.dmaIn, engineIn, hfinish, Bool.false_eq_true, if_false]

/-- While the engine counts, its machine for the requests does not become idle. -/
theorem busy_counting (mem : ℕ → BitVec 32) (cfg : Cfg) (i : ReadIn)
    (hbusy : s.engine.dma.req.h2fReqState ≠ .idle)
    (hfinish : s.engine.dma.recv.h2fRecvFinish = false) :
    (s.next mem cfg i).engine.dma.req.h2fReqState ≠ .idle ∧
      (s.engine.dma.req.h2fReqState = .dma3 →
        (s.next mem cfg i).engine.dma.req.h2fReqState = .dma3) := by
  have hnext : (s.next mem cfg i).engine.dma.req =
      s.engine.dma.h2fReqSm (s.engine.dmaIn cfg (s.engineIn i)) := rfl
  rw [hnext, DmaCtrl.h2fReqSm]
  cases hst : s.engine.dma.req.h2fReqState with
  | idle => exact absurd hst hbusy
  | _ =>
    simp only [Engine.dmaIn, Bool.false_eq_true, if_false]
    grind

/-- Completions are counted. -/
theorem countStep_counting (h : s.Counted mem) (ho : s.Tallied mem)
    (he : s.engine.Linked cfg .read) (hs : s.engine.dma.req.Sound)
    (hrecv : s.engine.dma.recv.h2fRecvState = .st1) : s.CountStep mem cfg i := by
  have hsteady := h.steady
  obtain ⟨hpos, hfinish⟩ := hsteady.counting hrecv
  have hleft := DmaCtrl.left_of_counting hsteady hrecv
  have hbusy : s.engine.dma.req.h2fReqState ≠ .idle := by
    intro hidle
    have := hsteady.idle hidle
    omega
  obtain ⟨hstarted, hstart'⟩ := busy_next mem cfg i hsteady hs hbusy
  obtain ⟨hbusy', hdma3⟩ := busy_counting mem cfg i hbusy hfinish
  have hle := h.shown_le_left ho he
  have hlen : s.rx.rx.cpldRecvFinish = true → s.rx.rx.cpldRecvLen ≠ 0 := by
    intro hshow
    refine ho.short.opened ?_
    have hdwords := dwords_pos s.rx.rx.cpldRecvLen
    rw [RxWrapper.opened, hshow]
    exact Nat.lt_of_lt_of_le hdwords (Nat.le_add_right _ _)
  rw [hleft] at hle
  rw [CountStep, hstarted, hleft]
  rcases recv_counting mem cfg i hrecv hlen hle hpos with ⟨hlast, hrecv'⟩ | ⟨rem, hrem, hsum, hrecv'⟩
  · have hleft' : (s.next mem cfg i).engine.dma.left = 0 := by
      refine DmaCtrl.left_of_rest hstart' ?_
      rw [hrecv']
    -- with the last completion everything has come
    have hwait : s.engine.dma.req.h2fReqState = .dma3 := by
      have hcount := h.count
      have hsent := ho.sent_le
      have htaken := taken_le mem he
      have hshown := s.rx.shown_le
      refine h.waiting ?_ (by omega)
      rw [RxWrapper.opened]
      rw [RxWrapper.shown] at hlast
      omega
    refine ⟨⟨?_, ?_, fun h => absurd h hbusy', fun _ => hdma3 hwait, ?_⟩, ?_⟩
    · rw [hstart']
      intro h
      cases h
    · rw [hrecv']
      intro h
      cases h
    · rw [hrecv']
      intro _ h
      cases h
    · rw [hleft', hlast, Nat.zero_add]
      rfl
  · have hleft' : (s.next mem cfg i).engine.dma.left = rem.toNat := by
      rw [DmaCtrl.left, hstart', hrecv', hrecv]
      rfl
    refine ⟨⟨?_, ?_, fun h => absurd h hbusy', ?_, ?_⟩, ?_⟩
    · rw [hstart']
      intro h
      cases h
    · rw [hrecv']
      exact fun _ => ⟨hrem, hfinish⟩
    · rw [hrecv']
      exact fun h => absurd (hfinish.symm.trans h) (by decide)
    · intro h
      omega
    · rw [hleft', hsum]
      rfl

/-- A clock of the engine, whatever it does. -/
theorem Counted.countStep (h : s.Counted mem) (ho : s.Tallied mem)
    (he : s.engine.Linked cfg .read) (hs : s.engine.dma.req.Sound) :
    s.CountStep mem cfg i := by
  by_cases hidle : s.engine.dma.req.h2fReqState = .idle
  · have hquiet := h.quiet ho he (h.steady.idle hidle)
    exact countStep_idle h.steady hs hidle hquiet.2.1
  · cases hstart : s.engine.dma.req.h2fRecvStart with
    | true => exact countStep_start h.steady hs hstart (h.quiet_start ho he hstart)
    | false =>
      cases hrecv : s.engine.dma.recv.h2fRecvState with
      | st1 => exact countStep_counting h ho he hs hrecv
      | idle =>
        have hleft := DmaCtrl.left_of_rest hstart hrecv
        exact countStep_rest h.steady hs hleft hidle (h.quiet ho he hleft).2.1

/-- The last completion finds the engine waiting for its end. -/
theorem Counted.waiting_next (h : s.Counted mem) (ho : s.Tallied mem) (ha : Answers s i)
    (he : s.engine.Linked cfg .read)
    (hleft : 0 < (s.next mem cfg i).engine.dma.left)
    (hstep : s.CountStep mem cfg i)
    (hall : (s.next mem cfg i).rx.sent.length = ((s.next mem cfg i).stream mem).length) :
    (s.next mem cfg i).engine.dma.req.h2fReqState = .dma3 := by
  -- nothing comes for a request that was not taken before
  have hloaded := (loaded_perm ha).length_eq
  have htally := ho.tally.length_eq
  rw [List.length_append] at hloaded htally
  have htaken := taken_le mem he
  rw [sent_next, stream_next, List.length_append] at hall
  have hstarted : ((s.started i).flatMap (Dma.dws mem)).length = 0 := by omega
  have hrequests := taken_eq mem he (by omega)
  have hold : 0 < s.engine.dma.left := by
    have hsum := hstep.2
    omega
  have hbusy : s.engine.dma.req.h2fReqState ≠ .idle := by
    intro hidle
    have := h.steady.idle hidle
    omega
  have hfinish : s.engine.dma.recv.h2fRecvFinish = false := by
    by_contra hfinish
    have hdma3 := h.steady.finish (by simpa using hfinish)
    rw [DmaCtrl.left] at hold
    split at hold
    · rename_i hstart
      have := (h.steady.start hstart).1
      rw [hdma3] at this
      cases this
    · split at hold
      · rename_i hst
        exact hfinish (h.steady.counting hst).2
      · omega
  rcases Engine.through he hrequests with hidle | hdma3 | ⟨hdma2, hlast, hend⟩
  · exact absurd hidle hbusy
  · exact (busy_counting mem cfg i hbusy hfinish).2 hdma3
  · show (s.engine.dma.h2fReqSm (s.engine.dmaIn cfg (s.engineIn i))).h2fReqState = .dma3
    rw [DmaCtrl.h2fReqSm, hdma2]
    simp [Engine.dmaIn, hlast, hend]

/-- **Counting.** A clock keeps the count. -/
theorem Counted.next (h : s.Counted mem) (ho : s.Tallied mem) (ha : Answers s i)
    (he : s.engine.Linked cfg .read) :
    (s.next mem cfg i).Counted mem := by
  have hstep := h.countStep (i := i) ho he he.sound.req
  have hcount' : (s.next mem cfg i).engine.dma.left + 4 * (s.next mem cfg i).rx.sent.length =
      4 * ((s.next mem cfg i).stream mem).length + 4 * (s.next mem cfg i).rx.uncounted := by
    have hcount := h.count
    have hsum := hstep.2
    have huncounted := ho.receiving.uncounted_next (c := rxClock i)
    rw [sent_next, stream_next, List.length_append]
    rw [RxWrapper.shown] at hsum
    have hrx : (s.next mem cfg i).rx = s.rx.next (rxClock i) := rfl
    rw [hrx]
    omega
  refine ⟨hstep.1, hcount', fun hopened hall => ?_⟩
  refine h.waiting_next ho ha he ?_ hstep hall
  have huncounted : 0 < (s.next mem cfg i).rx.uncounted := by
    rw [RxSide.uncounted]
    omega
  omega

/-! ### Runs -/

theorem engine_linked {P : ReadSystem → ReadIn → Prop} (h : (readsWhere mem cfg P).Reachable s)
    (k : Kind) : s.engine.Linked cfg k := by
  have he : (engines cfg).Reachable s.engine := by
    induction h with
    | init h0 =>
      obtain rfl := h0
      exact .init rfl
    | step _ hst ih =>
      obtain ⟨i, -, rfl⟩ := hst
      exact ih.step ⟨_, rfl⟩
  exact Engine.linked_of_reachable he k

theorem ordered_of_reachable (h : (orderedReads mem cfg).Reachable s) : s.Ordered mem := by
  induction h with
  | init h0 =>
    obtain rfl := h0
    exact ⟨RxSide.receiving_start, RxSide.short_start, rfl⟩
  | step _ hst ih =>
    obtain ⟨i, ⟨ha, hi⟩, rfl⟩ := hst
    exact ih.next ha hi

theorem counted_of_reachable (h : (orderedReads mem cfg).Reachable s) : s.Counted mem := by
  induction h with
  | init h0 =>
    obtain rfl := h0
    refine ⟨⟨?_, ?_, fun _ => rfl, ?_, fun _ _ => rfl⟩, rfl, ?_⟩
    · intro h
      cases h
    · intro h
      cases h
    · intro h
      cases h
    · intro h
      cases h
  | step hr hst ih =>
    obtain ⟨i, ⟨ha, hi⟩, rfl⟩ := hst
    exact ih.next (ordered_of_reachable hr).tallied ha (engine_linked hr .read)

theorem endWritten_of_reachable (h : (orderedReads mem cfg).Reachable s) : s.rx.EndWritten := by
  cases h with
  | init h0 =>
    obtain rfl := h0
    exact fun _ => rfl
  | step hr hst =>
    obtain ⟨i, -, rfl⟩ := hst
    exact (ordered_of_reachable hr).receiving.endWritten_next

/-- The FIFO gets the DWords of the stream in order. -/
theorem Ordered.written_append (h : s.Ordered mem) (he : s.engine.Linked cfg .read) :
    ∃ rest, s.rx.written.flatMap wordDws ++ rest = s.stream mem := by
  obtain ⟨mid, hmid⟩ := Engine.taken_todo he
  have hrequests := congrArg (List.flatMap (pieceDws mem)) hmid
  rw [stream_eq, List.append_assoc, List.flatMap_append, ← h.order, ← h.receiving.order,
    List.append_assoc, List.append_assoc] at hrequests
  exact ⟨_, hrequests⟩

/-- The FIFO gets the DWords of the stream, in the order in which they come. -/
theorem Tallied.written_perm (h : s.Tallied mem) (he : s.engine.Linked cfg .read) :
    ∃ rest, (s.rx.sent ++ rest).Perm (s.stream mem) := by
  obtain ⟨mid, hmid⟩ := Engine.taken_todo he
  have hrequests := congrArg (List.flatMap (pieceDws mem)) hmid
  rw [stream_eq, List.append_assoc, List.flatMap_append] at hrequests
  refine ⟨s.host.flatten ++
    (mid ++ (s.engine.dma.requester cfg .read).todo).flatMap (pieceDws mem), ?_⟩
  rw [← hrequests, ← List.append_assoc]
  exact h.tally.append_right _

/-- Everything was written when nothing is expected, and only then. -/
theorem Counted.left_eq_zero (h : s.Counted mem) (ho : s.Tallied mem) (hend : s.rx.EndWritten)
    (he : s.engine.Linked cfg .read) :
    s.engine.dma.left = 0 ↔
      (s.rx.written.flatMap wordDws).length = (s.stream mem).length := by
  have hnone := RxSide.Receiving.uncounted_eq_zero ho.receiving hend
  have hcount := h.count
  have horder := congrArg List.length ho.receiving.order
  rw [List.length_append] at horder
  constructor
  · intro hleft
    obtain ⟨huncounted, -, hall⟩ := h.quiet ho he hleft
    rw [hnone.mp huncounted, List.length_nil] at horder
    omega
  · intro hall
    have hsent := ho.sent_le
    have htaken := taken_le mem he
    have hnil := List.length_eq_zero_iff.mp (by omega :
      (s.rx.rx.pending ++ s.rx.rx.held ++ s.rx.sending.coming).length = 0)
    rw [hnil, List.length_nil] at horder
    rw [hnone.mpr hnil] at hcount
    omega

/-- The end is raised exactly while everything was written and the engine is not ready. -/
theorem Counted.finish_iff (h : s.Counted mem) (ho : s.Tallied mem) (hend : s.rx.EndWritten)
    (he : s.engine.Linked cfg .read) :
    s.engine.dma.recv.h2fRecvFinish = true ↔
      s.engine.ready .read = false ∧
        (s.rx.written.flatMap wordDws).length = (s.stream mem).length := by
  have hsteady := h.steady
  have hready : s.engine.ready .read = decide (s.engine.dma.req.h2fReqState = .idle) :=
    he.sound.req.ready
  have hleft := h.left_eq_zero ho hend he
  constructor
  · intro hfinish
    have hdma3 := hsteady.finish hfinish
    refine ⟨by rw [hready, hdma3]; rfl, hleft.mp (DmaCtrl.left_of_rest ?_ ?_)⟩
    · by_contra hstart
      have hdma1 := (hsteady.start (by simpa using hstart)).1
      exact absurd (hdma1.symm.trans hdma3) (by decide)
    · by_contra hrecv
      have hst : s.engine.dma.recv.h2fRecvState = .st1 := by
        cases hst : s.engine.dma.recv.h2fRecvState with
        | idle => exact absurd hst hrecv
        | st1 => rfl
      exact absurd (hfinish.symm.trans (hsteady.counting hst).2) (by decide)
  · rintro ⟨hbusy, hall⟩
    by_contra hfinish
    have hidle := hsteady.rested (hleft.mpr hall) (by simpa using hfinish)
    rw [hready, hidle] at hbusy
    cases hbusy

/-- When the engine is ready, everything was written. -/
theorem Counted.written_of_ready (h : s.Counted mem) (ho : s.Tallied mem)
    (hend : s.rx.EndWritten) (he : s.engine.Linked cfg .read)
    (hready : s.engine.ready .read = true) :
    (s.rx.written.flatMap wordDws).length = (s.stream mem).length :=
  (h.left_eq_zero ho hend he).mp
    (h.steady.idle (of_decide_eq_true (he.sound.req.ready.symm.trans hready)))

/-- Behind the end the engine is ready. -/
theorem Counted.ready_next (h : s.Counted mem) (i : ReadIn)
    (hfinish : s.engine.dma.recv.h2fRecvFinish = true) :
    (s.next mem cfg i).engine.ready .read = true := by
  show (s.engine.dma.h2fReqSm (s.engine.dmaIn cfg (s.engineIn i))).dmaOutH2fReady = true
  rw [DmaCtrl.h2fReqSm, h.steady.finish hfinish]
  simp [Engine.dmaIn, hfinish]

end ReadSystem

instance (s : ReadSystem) (i : ReadIn) : Decidable (Answers s i) :=
  match h : i.answer with
  | some (.completion j c) =>
    decidable_of_iff (c.payload <+: s.host.getD j []) (by simp [Answers, h])
  | some (.other o) => isTrue (by simp [Answers, h])
  | none => isTrue (by simp [Answers, h])

instance (i : ReadIn) : Decidable (ShortAnswers i) :=
  match h : i.answer with
  | some (.completion _ c) =>
    decidable_of_iff (c.payload.length < 1024) (by simp [ShortAnswers, h])
  | some (.other o) => isTrue (by simp [ShortAnswers, h])
  | none => isTrue (by simp [ShortAnswers, h])

instance (s : ReadSystem) (i : ReadIn) : Decidable (InOrder s i) :=
  match h : i.answer with
  | some (.completion j c) =>
    decidable_of_iff ((∀ k < j, s.host.getD k [] = []) ∧ c.payload.length < 1024)
      (by simp [InOrder, h])
  | some (.other o) => isTrue (by simp [InOrder, h])
  | none => isTrue (by simp [InOrder, h])

namespace ReadSystem

/-- Run through the clocks. -/
def run (mem : ℕ → BitVec 32) (cfg : Cfg) (s : ReadSystem) (l : List ReadIn) : ReadSystem :=
  l.foldl (next mem cfg) s

/-- Every clock meets a condition. -/
def Along (mem : ℕ → BitVec 32) (cfg : Cfg) (P : ReadSystem → ReadIn → Prop) :
    ReadSystem → List ReadIn → Prop
  | _, [] => True
  | s, i :: l => P s i ∧ Along mem cfg P (s.next mem cfg i) l

instance decidableAlong (mem : ℕ → BitVec 32) (cfg : Cfg) (P : ReadSystem → ReadIn → Prop)
    [∀ s i, Decidable (P s i)] : ∀ s l, Decidable (Along mem cfg P s l)
  | _, [] => .isTrue trivial
  | s, i :: l =>
    have := decidableAlong mem cfg P (s.next mem cfg i) l
    inferInstanceAs (Decidable (_ ∧ _))

theorem reachable_run {P : ReadSystem → ReadIn → Prop} (h : (readsWhere mem cfg P).Reachable s)
    {l : List ReadIn} (hl : Along mem cfg P s l) :
    (readsWhere mem cfg P).Reachable (s.run mem cfg l) := by
  induction l generalizing s with
  | nil => exact h
  | cons i l ih => exact ih (h.step ⟨i, hl.1, rfl⟩) hl.2

end ReadSystem

/-- A clock in which a read may start, and a TLP of the host may come. -/
def readClock (h2f : Option Dma) (answer : Option Answer) : ReadIn :=
  ⟨default, h2f, none, false, false, 0, 0, answer⟩

/-- Memory that holds its own addresses. -/
def sampleMem (a : ℕ) : BitVec 32 := BitVec.ofNat 32 a

/-- The completion for the first request of the sample read. -/
def firstCompletion : Completion :=
  ⟨0x4A00002000000000, pieceDws sampleMem ⟨0x1000, 128⟩, by decide, by decide, by decide, by decide⟩

/-- And for the second. -/
def secondCompletion : Completion :=
  ⟨0x4A00000200000000, pieceDws sampleMem ⟨0x1080, 8⟩, by decide, by decide, by decide, by decide⟩

/-- The sample read with both completions in order, until the engine is ready. -/
def orderedRun : List ReadIn :=
  readClock (some sampleRead) none :: List.replicate 12 (readClock none none) ++
    readClock none (some (.completion 0 firstCompletion)) ::
    List.replicate 17 (readClock none none) ++
    readClock none (some (.completion 1 secondCompletion)) ::
    List.replicate 5 (readClock none none)

/-- The sample read with the completion for the second request before that for the first. -/
def swappedRun : List ReadIn :=
  readClock (some sampleRead) none :: List.replicate 12 (readClock none none) ++
    readClock none (some (.completion 1 secondCompletion)) ::
    List.replicate 5 (readClock none none) ++
    readClock none (some (.completion 0 firstCompletion)) ::
    List.replicate 20 (readClock none none)

end PcieCsr

end LeapPlatforms
