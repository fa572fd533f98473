import LeapPlatforms.Foundation.Draining
import LeapPlatforms.PcieXupv5.PioFifo
import Mathlib.Tactic.Common

/-!
# From packets to the PIO interface

`conv_PCIE_to_PIO` takes the packets of the host from a queue, and shows each transaction to the
registers: the address for one clock, the window and the data for as long as it is enabled. A write
with a long address comes in two packets, and its data are there some clocks behind the address,
which `mkPioFifo` has stored meanwhile. A read is completed in the clock in which it is done; where
the queue of completions is full then, the completion is lost.

All rules of both modules that can fire in a clock do. The host has no more reads on the way than
the queue of completions has room for.

## Main definitions

* `Tlp`, `Transaction.packets` — the packets, and what a transaction comes in
* `Bridge`, `Bridge.cycle` — both modules, clock by clock
* `Enabled`, `bridge` — the runs
* `Bridge.Inv`, `Bridge.atOnce` — where a transaction is, and the registers as the host sees them

## Main results

* `Bridge.Inv.next` — the step lemma
* `bridge_simulates`, `bridge_in_order` — every run is one of transactions at once
-/

namespace LeapPlatforms

namespace PcieXupv5

variable {H : Type*}

/-! ### The code -/

/-- A packet: the first of a transaction, with the data that it has, or one with data only. -/
inductive Tlp (H : Type*)
  | header (info : Info H) (data : BitVec 32)
  | payload (word : BitVec 32)

/-- The packets of a transaction. -/
def Transaction.packets (t : Transaction H) : List (Tlp H) :=
  if t.info.read ∨ t.info.dw3 then [.header t.info t.data]
  else [.header t.info t.data, .payload t.data]

/-- The size of `fifoTx`. -/
def txDepth : ℕ := 32

/-- `conv_PCIE_to_PIO` with `mkPioFifo`. A tag is an index of the score board. -/
structure Bridge (H : Type*) where
  /-- `fifoRx`. -/
  fifoRx : List (Tlp H) := []
  /-- `fifoTx`. -/
  fifoTx : List (Completion H) := []
  rReadEnable : Bool := false
  rWriteEnable : Bool := false
  rInWritePhase4DW : Bool := false
  rAddress : Option (BitVec 32) := none
  rWriteData : BitVec 32 := 0
  rWriteBe : BitVec 4 := 0
  rBar : BitVec 3 := 0
  rTag : BitVec 4 := 0
  rTagCounter : BitVec 4 := 0
  rfScoreBoard : BitVec 4 → Option (Info H) := fun _ => none
  storedAddr : Option (BitVec 12) := none
  fifo : PioFifo := {}
  /-- The transactions that came and are not done. -/
  queue : List (Transaction H) := []
  arrived : List (Transaction H) := []
  /-- The completions that were sent. -/
  sent : List (Completion H) := []
  calls : List Call := []

/-- What happens next: the packets of a transaction come, a completion is sent, or a clock passes.
In a clock a packet may not be there yet, and the board's clients call some methods. -/
inductive Action (H : Type*)
  | arrive (t : Transaction H)
  | transmit
  | cycle (rxReady : Bool) (calls : List Call)

namespace Bridge

variable (B : Build) (s : Bridge H)

/-- `addr_w`, in a clock. -/
def addrW : Option (BitVec 12) :=
  match s.rAddress with
  | some addr => some ((addr >>> 3).setWidth 12)
  | none => s.storedAddr

/-- The transaction that is shown to the registers is done. -/
def serve : Bridge H :=
  match s.addrW with
  | none => s
  | some addr =>
    if s.rWriteEnable then
      { s with
        fifo := s.fifo.write addr s.rBar (s.rWriteBe.setWidth 8) (s.rWriteData.setWidth 64)
        queue := s.queue.tail }
    else if s.rReadEnable then
      let r := s.fifo.read B addr s.rBar
      { s with
        fifo := r.2
        fifoTx :=
          match s.rfScoreBoard s.rTag with
          | some info =>
            if s.fifoTx.length < txDepth then s.fifoTx ++ [info.complete r.1] else s.fifoTx
          | none => s.fifoTx
        queue := s.queue.tail }
    else s

/-- The enables are reset, and the address is there for one clock. -/
def settle : Bridge H :=
  { s with
    rWriteEnable := false, rReadEnable := false, rAddress := none, storedAddr := s.addrW }

/-- A request is kept in the score board, and its address is shown. -/
def accept (info : Info H) (rest : List (Tlp H)) : Bridge H :=
  { s with
    fifoRx := rest
    rfScoreBoard := fun tag => if tag = s.rTagCounter then some info else s.rfScoreBoard tag
    rTagCounter := s.rTagCounter + 1
    rAddress := some info.address
    rBar := info.bars
    rTag := s.rTagCounter }

/-- The rule `process_next_4DW_write_d`. -/
def takeData (word : BitVec 32) (rest : List (Tlp H)) : Bridge H :=
  { s with
    fifoRx := rest, rWriteEnable := true, rWriteData := byteSwap word, rInWritePhase4DW := false }

/-- The rules that take a packet. They look at the enables as they were when the clock began. -/
def process (writeEnable readEnable : Bool) : Bridge H :=
  match s.fifoRx with
  | [] => s
  | .header info data :: rest =>
    if info.read && !writeEnable && !readEnable then
      { s.accept info rest with rReadEnable := true }
    else if !info.read && info.dw3 && !writeEnable && !readEnable then
      { s.accept info rest with
        rWriteEnable := true, rWriteData := byteSwap data, rWriteBe := info.firstBE }
    else if s.rInWritePhase4DW && !writeEnable then s.takeData info.dw0 rest
    else if !info.read && !info.dw3 && !writeEnable && !readEnable then
      { s.accept info rest with rWriteBe := info.firstBE, rInWritePhase4DW := true }
    else s
  | .payload word :: rest =>
    if s.rInWritePhase4DW && !writeEnable then s.takeData word rest else s

/-- The board's clients call some methods. -/
def callAll (cs : List Call) : Bridge H :=
  { s with fifo := cs.foldl PioFifo.call s.fifo, calls := s.calls ++ cs }

/-- A clock. -/
def cycle (rxReady : Bool) (calls : List Call) : Bridge H :=
  let t := ((s.serve B).settle).callAll calls
  if rxReady then t.process s.rWriteEnable s.rReadEnable else t

/-- What an action does. -/
def next : Action H → Bridge H
  | .arrive t =>
    { s with
      fifoRx := s.fifoRx ++ t.packets, queue := s.queue ++ [t], arrived := s.arrived ++ [t] }
  | .transmit => { s with fifoTx := s.fifoTx.tail, sent := s.sent ++ s.fifoTx.head?.toList }
  | .cycle rxReady calls => s.cycle B rxReady calls

/-- The reads that were not done yet. -/
def reads : ℕ := s.queue.countP (·.info.read)

end Bridge

/-- Each method is called once at most in a clock, and when it could be called at its start. -/
structure CallsReady (f : PioFifo) (cs : List Call) : Prop where
  ready : ∀ c ∈ cs, c.Ready f
  nodup : (cs.map Call.method).Nodup

/-- When an action happens. The host waits with a read while there is no room for its completion. -/
def Enabled (s : Bridge H) : Action H → Prop
  | .arrive t => t.info.read = true → s.reads + s.fifoTx.length < txDepth
  | .transmit => s.fifoTx ≠ []
  | .cycle _ calls => CallsReady s.fifo calls

/-- The runs of the board. -/
def bridge (B : Build) (H : Type*) : TransitionSystem (Bridge H) where
  init s := s = {}
  step s t := ∃ a, Enabled s a ∧ s.next B a = t

/-! ### The invariant -/

/-- The registers as the host sees them: what was done was done at once. -/
def Bridge.atOnce (s : Bridge H) : InOrder H where
  fifo := s.fifo
  pending := s.queue
  completions := s.sent ++ s.fifoTx
  arrived := s.arrived
  calls := s.calls

/-- The packets of some transactions. -/
def packets (ts : List (Transaction H)) : List (Tlp H) := ts.flatMap Transaction.packets

/-- A transaction is shown to the registers, and those behind it are in the queue. -/
structure Shown (s : Bridge H) (t : Transaction H) (ts : List (Transaction H)) : Prop where
  queue : s.queue = t :: ts
  addrW : s.addrW = some t.info.reg
  rBar : s.rBar = t.info.bars

/-- Where the first of the transactions is. -/
inductive Phase (s : Bridge H) : Prop
  | idle (hw : s.rWriteEnable = false) (hr : s.rReadEnable = false)
      (hp : s.rInWritePhase4DW = false) (hrx : s.fifoRx = packets s.queue)
  | reading (t : Transaction H) (ts : List (Transaction H)) (shown : Shown s t ts)
      (hread : t.info.read = true) (hw : s.rWriteEnable = false) (hr : s.rReadEnable = true)
      (hp : s.rInWritePhase4DW = false) (hrx : s.fifoRx = packets ts)
      (hinfo : s.rfScoreBoard s.rTag = some t.info)
  | writing (t : Transaction H) (ts : List (Transaction H)) (shown : Shown s t ts)
      (hread : t.info.read = false) (hw : s.rWriteEnable = true) (hr : s.rReadEnable = false)
      (hp : s.rInWritePhase4DW = false) (hrx : s.fifoRx = packets ts)
      (hbe : s.rWriteBe = t.info.firstBE) (hdata : s.rWriteData = byteSwap t.data)
  | addressed (t : Transaction H) (ts : List (Transaction H)) (shown : Shown s t ts)
      (hread : t.info.read = false) (hw : s.rWriteEnable = false) (hr : s.rReadEnable = false)
      (hp : s.rInWritePhase4DW = true) (hrx : s.fifoRx = .payload t.data :: packets ts)
      (hbe : s.rWriteBe = t.info.firstBE)

/-- A transaction is somewhere, and there is room for the completions of all reads. -/
structure Bridge.Inv (s : Bridge H) : Prop where
  phase : Phase s
  room : s.reads + s.fifoTx.length ≤ txDepth

/-- How far the packets and the completions still have to go. -/
def Bridge.toGo (s : Bridge H) : ℕ :=
  3 * s.fifoRx.length + 2 * (s.rWriteEnable || s.rReadEnable).toNat + s.fifoTx.length

variable {B : Build} {s : Bridge H}

/-! ### A clock -/

theorem packets_cons (t : Transaction H) (ts : List (Transaction H)) :
    packets (t :: ts) = t.packets ++ packets ts := List.flatMap_cons

/-- A method that can be called can be called behind another one. -/
theorem ready_call {f : PioFifo} {c d : Call} (h : c.method ≠ d.method) (hc : c.Ready f) :
    c.Ready (f.call d) := by
  cases c <;> cases d <;> first | exact absurd rfl h | exact hc

/-- What can be called when a clock begins can be called when a register was written. -/
theorem ready_write {f : PioFifo} {c : Call} (hc : c.Ready f) (addr : BitVec 12) (bar : BitVec 3)
    (be : BitVec 8) (data : BitVec 64) : c.Ready (f.write addr bar be data) := by
  have happend : ∀ {l : List (BitVec 8)} {r : BitVec 8} (x : BitVec 8), l.head? = some r →
      (l ++ [x]).head? = some r := by
    intro l r x hl
    rw [List.head?_append, hl, Option.some_or]
  rw [PioFifo.write]
  split_ifs <;> cases c <;> first | exact hc | exact happend _ hc

/-- What can be called when a clock begins can be called when a register was read. -/
theorem ready_read {f : PioFifo} {c : Call} (hc : c.Ready f) (addr : BitVec 12) (bar : BitVec 3) :
    c.Ready (f.read B addr bar).2 := by
  have htail : ∀ {x : BitVec 8} {l rest : List (BitVec 8)}, l = x :: rest →
      l.length < fifoDepth → rest.length < fifoDepth := by
    rintro x _ rest rfl h
    exact Nat.lt_of_succ_lt h
  rw [PioFifo.read]
  split
  · cases c <;> exact hc
  · split
    · next h => cases c <;> first | exact hc | exact htail h hc
    · split
      · next h => cases c <;> first | exact hc | exact htail h hc
      · cases c <;> exact hc

/-- The methods are called one after the other. -/
theorem InOrder.steps_callAll (a : InOrder H) {cs : List Call} (hcs : CallsReady a.fifo cs) :
    Relation.ReflTransGen (InOrder.Step B) a
      { a with fifo := cs.foldl PioFifo.call a.fifo, calls := a.calls ++ cs } := by
  induction cs generalizing a with
  | nil =>
    rw [List.append_nil]
    exact .refl
  | cons c cs ih =>
    obtain ⟨hc, hnodup⟩ := List.nodup_cons.mp hcs.nodup
    have hrest : CallsReady (a.call c).fifo cs := by
      refine ⟨fun d hd => ?_, hnodup⟩
      refine ready_call (fun heq => hc ?_) (hcs.ready d (List.mem_cons_of_mem c hd))
      exact heq ▸ List.mem_map_of_mem hd
    have := ih (a.call c) hrest
    rw [InOrder.call, List.append_assoc] at this
    exact .head (.call a c (hcs.ready c List.mem_cons_self)) this

/-- A clock in which no transaction is shown. -/
theorem Bridge.serve_of_disabled (hw : s.rWriteEnable = false) (hr : s.rReadEnable = false) :
    s.serve B = s := by
  rw [Bridge.serve, hw, hr]
  split <;> rfl

/-- A write that is shown is done. -/
theorem Shown.serve_write {t : Transaction H} {ts : List (Transaction H)} (h : Shown s t ts)
    (hw : s.rWriteEnable = true) (hbe : s.rWriteBe = t.info.firstBE)
    (hdata : s.rWriteData = byteSwap t.data) :
    s.serve B = { s with
      fifo := s.fifo.write t.info.reg t.info.bars (t.info.firstBE.setWidth 8)
        ((byteSwap t.data).setWidth 64)
      queue := ts } := by
  simp only [Bridge.serve, h.addrW, if_pos hw, h.rBar, hbe, hdata, h.queue, List.tail_cons]

/-- A read that is shown is done, and completed when there is room. -/
theorem Shown.serve_read {t : Transaction H} {ts : List (Transaction H)} (h : Shown s t ts)
    (hw : s.rWriteEnable = false) (hr : s.rReadEnable = true)
    (hinfo : s.rfScoreBoard s.rTag = some t.info) (hroom : s.fifoTx.length < txDepth) :
    s.serve B = { s with
      fifo := (s.fifo.read B t.info.reg t.info.bars).2
      fifoTx := s.fifoTx ++ [t.info.complete (s.fifo.read B t.info.reg t.info.bars).1]
      queue := ts } := by
  simp only [Bridge.serve, h.addrW, hw, Bool.false_eq_true, if_false, if_pos hr, h.rBar, hinfo,
    if_pos hroom, h.queue, List.tail_cons]

/-- The reads that are not done, one transaction later. -/
theorem Shown.reads {t : Transaction H} {ts : List (Transaction H)} (h : Shown s t ts) :
    s.reads = ts.countP (·.info.read) + if t.info.read then 1 else 0 := by
  rw [Bridge.reads, h.queue, List.countP_cons]

/-- What a clock does before a packet is taken: what is shown is done at once, and then nothing is
shown. -/
theorem Bridge.Inv.serve (h : s.Inv) :
    Relation.ReflTransGen (InOrder.Step B) s.atOnce (s.serve B).settle.atOnce ∧
      (s.serve B).settle.Inv ∧
      (∀ cs, CallsReady s.fifo cs → CallsReady (s.serve B).fifo cs) ∧
      (s.rWriteEnable = false ∧ s.rReadEnable = false ∧ s.serve B = s ∨
        (s.rWriteEnable = true ∨ s.rReadEnable = true) ∧
          (s.serve B).settle.rInWritePhase4DW = false ∧ (s.serve B).settle.toGo < s.toGo) := by
  have hroom := h.room
  cases h.phase with
  | idle hw hr hp hrx =>
    rw [Bridge.serve_of_disabled hw hr]
    exact ⟨.refl, ⟨.idle rfl rfl hp hrx, hroom⟩, fun _ hcs => hcs, .inl ⟨hw, hr, rfl⟩⟩
  | addressed t ts shown hread hw hr hp hrx hbe =>
    rw [Bridge.serve_of_disabled hw hr]
    exact ⟨.refl, ⟨.addressed t ts ⟨shown.queue, shown.addrW, shown.rBar⟩ hread rfl rfl hp hrx hbe,
      hroom⟩, fun _ hcs => hcs, .inl ⟨hw, hr, rfl⟩⟩
  | reading t ts shown hread hw hr hp hrx hinfo =>
    rw [shown.reads, if_pos hread] at hroom
    rw [shown.serve_read hw hr hinfo (by omega)]
    refine ⟨?_, ⟨.idle rfl rfl hp hrx, ?_⟩, fun cs hcs => ⟨fun c hc => ?_, hcs.nodup⟩,
      .inr ⟨.inr hr, hp, ?_⟩⟩
    · have hstep := InOrder.Step.perform (B := B) s.atOnce t ts shown.queue
      rw [InOrder.perform, if_pos hread] at hstep
      simpa only [Bridge.atOnce, Bridge.settle, List.append_assoc] using
        Relation.ReflTransGen.single hstep
    · change ts.countP _ + (s.fifoTx ++ [_]).length ≤ txDepth
      rw [List.length_append, List.length_singleton]
      omega
    · exact ready_read (hcs.ready c hc) _ _
    · simp only [Bridge.toGo, Bridge.settle, hw, hr, Bool.false_or, Bool.toNat_false,
        Bool.toNat_true, List.length_append, List.length_singleton]
      omega
  | writing t ts shown hread hw hr hp hrx hbe hdata =>
    rw [shown.reads, if_neg (by rw [hread]; decide)] at hroom
    rw [shown.serve_write hw hbe hdata]
    refine ⟨?_, ⟨.idle rfl rfl hp hrx, hroom⟩, fun cs hcs => ⟨fun c hc => ?_, hcs.nodup⟩,
      .inr ⟨.inl hw, hp, ?_⟩⟩
    · have hstep := InOrder.Step.perform (B := B) s.atOnce t ts shown.queue
      rw [InOrder.perform, if_neg (by rw [hread]; decide)] at hstep
      exact .single hstep
    · exact ready_write (hcs.ready c hc) _ _ _ _
    · simp only [Bridge.toGo, Bridge.settle, hw, Bool.true_or, Bool.or_false, Bool.toNat_false,
        Bool.toNat_true]
      omega

/-- In a clock in which a transaction is shown no packet is taken. -/
theorem Bridge.process_of_enabled {w r : Bool} (hp : s.rInWritePhase4DW = false)
    (hen : w = true ∨ r = true) : s.process w r = s := by
  have hnone : (!w && !r) = false := by
    rcases hen with rfl | rfl
    · rfl
    · exact Bool.and_false _
  rw [Bridge.process]
  rcases s.fifoRx with _ | ⟨_ | _, rest⟩
  · rfl
  · simp only [hp, Bool.and_assoc, hnone, Bool.and_false, Bool.false_and, Bool.false_eq_true,
      if_false]
  · simp only [hp, Bool.false_and, Bool.false_eq_true, if_false]

/-- A packet that is taken is the first of the first transaction, or the second. -/
theorem Bridge.Inv.process (h : s.Inv) (hw : s.rWriteEnable = false) (hr : s.rReadEnable = false) :
    (s.process false false).Inv ∧ (s.process false false).atOnce = s.atOnce ∧
      (s.fifoRx ≠ [] → (s.process false false).toGo < s.toGo) := by
  have hroom := h.room
  have hless : ∀ {t : Bridge H}, t.fifoRx.length < s.fifoRx.length → t.fifoTx = s.fifoTx →
      t.toGo < s.toGo := by
    intro t hlen htx
    have hle := (t.rWriteEnable || t.rReadEnable).toNat_le
    simp only [Bridge.toGo, hw, hr, htx, Bool.or_false, Bool.toNat_false]
    omega
  cases h.phase with
  | idle _ _ hp hrx =>
    rcases hq : s.queue with _ | ⟨t, ts⟩
    · rw [hq] at hrx
      have hsame : s.process false false = s := by
        rw [Bridge.process, show s.fifoRx = [] from hrx]
      rw [hsame]
      exact ⟨h, rfl, fun hne => absurd hrx hne⟩
    · rw [hq, packets_cons] at hrx
      rcases hread : t.info.read with _ | _
      · rcases hdw3 : t.info.dw3 with _ | _
        · rw [show t.packets ++ packets ts =
              .header t.info t.data :: .payload t.data :: packets ts by
            simp [Transaction.packets, hread, hdw3]] at hrx
          have hsame : s.process false false =
              { s.accept t.info (.payload t.data :: packets ts) with
                rWriteBe := t.info.firstBE, rInWritePhase4DW := true } := by
            simp [Bridge.process, hrx, hread, hdw3, hp]
          rw [hsame]
          exact ⟨⟨.addressed t ts ⟨hq, rfl, rfl⟩ hread hw hr rfl rfl rfl, hroom⟩, rfl,
            fun _ => hless (by rw [hrx]; exact Nat.lt_succ_self _) rfl⟩
        · rw [show t.packets ++ packets ts = .header t.info t.data :: packets ts by
            simp [Transaction.packets, hdw3]] at hrx
          have hsame : s.process false false = { s.accept t.info (packets ts) with
              rWriteEnable := true
              rWriteData := byteSwap t.data
              rWriteBe := t.info.firstBE } := by
            simp [Bridge.process, hrx, hread, hdw3]
          rw [hsame]
          exact ⟨⟨.writing t ts ⟨hq, rfl, rfl⟩ hread rfl hr hp rfl rfl rfl, hroom⟩, rfl,
            fun _ => hless (by rw [hrx]; exact Nat.lt_succ_self _) rfl⟩
      · rw [show t.packets ++ packets ts = .header t.info t.data :: packets ts by
          simp [Transaction.packets, hread]] at hrx
        have hsame : s.process false false =
            { s.accept t.info (packets ts) with rReadEnable := true } := by
          simp [Bridge.process, hrx, hread]
        rw [hsame]
        exact ⟨⟨.reading t ts ⟨hq, rfl, rfl⟩ hread hw rfl hp rfl (if_pos rfl), hroom⟩, rfl,
          fun _ => hless (by rw [hrx]; exact Nat.lt_succ_self _) rfl⟩
  | addressed t ts shown hread _ _ hp hrx hbe =>
    have hsame : s.process false false = s.takeData t.data (packets ts) := by
      simp [Bridge.process, hrx, hp]
    rw [hsame]
    exact ⟨⟨.writing t ts ⟨shown.queue, shown.addrW, shown.rBar⟩ hread rfl hr rfl rfl hbe rfl,
      hroom⟩, rfl, fun _ => hless (by rw [hrx]; exact Nat.lt_succ_self _) rfl⟩
  | reading _ _ _ _ _ hr' => rw [hr] at hr'; cases hr'
  | writing _ _ _ _ hw' => rw [hw] at hw'; cases hw'

/-- What is neither of the conversion nor of what it works on. -/
theorem Phase.frame (h : Phase s) (fifo : PioFifo) (fifoTx sent : List (Completion H))
    (calls : List Call) : Phase { s with fifo, fifoTx, sent, calls } := by
  cases h with
  | idle hw hr hp hrx => exact .idle hw hr hp hrx
  | reading t ts shown hread hw hr hp hrx hinfo =>
    exact .reading t ts ⟨shown.queue, shown.addrW, shown.rBar⟩ hread hw hr hp hrx hinfo
  | writing t ts shown hread hw hr hp hrx hbe hdata =>
    exact .writing t ts ⟨shown.queue, shown.addrW, shown.rBar⟩ hread hw hr hp hrx hbe hdata
  | addressed t ts shown hread hw hr hp hrx hbe =>
    exact .addressed t ts ⟨shown.queue, shown.addrW, shown.rBar⟩ hread hw hr hp hrx hbe

theorem Bridge.Inv.callAll (h : s.Inv) (cs : List Call) : (s.callAll cs).Inv :=
  ⟨h.phase.frame _ s.fifoTx s.sent _, h.room⟩

/-- **A clock** is a transaction at once or none, and then the calls. -/
theorem Bridge.Inv.cycle (h : s.Inv) (rxReady : Bool) {cs : List Call}
    (hcs : CallsReady s.fifo cs) :
    (s.cycle B rxReady cs).Inv ∧
      Relation.ReflTransGen (InOrder.Step B) s.atOnce (s.cycle B rxReady cs).atOnce := by
  obtain ⟨hserved, hinv, hready, hphase⟩ := h.serve (B := B)
  have hcalls := hserved.trans (InOrder.steps_callAll (s.serve B).settle.atOnce (hready cs hcs))
  have hinv' := hinv.callAll cs
  rw [Bridge.cycle]
  rcases rxReady with _ | _
  · exact ⟨hinv', hcalls⟩
  · rcases hphase with ⟨hw, hr, -⟩ | ⟨hen, hp, -⟩
    · simp only [hw, hr, if_true]
      obtain ⟨hinv'', hsame, -⟩ := hinv'.process rfl rfl
      refine ⟨hinv'', ?_⟩
      rw [hsame]
      exact hcalls
    · simp only [if_true]
      rw [Bridge.process_of_enabled (s := ((s.serve B).settle).callAll cs) hp hen]
      exact ⟨hinv', hcalls⟩

/-! ### Packets and completions -/

theorem packets_append (ts ts' : List (Transaction H)) :
    packets (ts ++ ts') = packets ts ++ packets ts' := List.flatMap_append

/-- The packets of a transaction come behind those that are there. -/
theorem Bridge.Inv.arrive (h : s.Inv) {t : Transaction H}
    (ht : t.info.read = true → s.reads + s.fifoTx.length < txDepth) :
    (s.next B (.arrive t)).Inv := by
  have hpackets : packets [t] = t.packets := by
    rw [packets, List.flatMap_singleton]
  have hrx : ∀ {rx : List (Tlp H)} {ts : List (Transaction H)}, rx = packets ts →
      rx ++ t.packets = packets (ts ++ [t]) := by
    rintro rx ts rfl
    rw [packets_append, hpackets]
  have happend : ∀ {t' : Transaction H} {ts : List (Transaction H)}, Shown s t' ts →
      Shown (s.next B (.arrive t)) t' (ts ++ [t]) := fun shown =>
    ⟨congrArg (· ++ [t]) shown.queue, shown.addrW, shown.rBar⟩
  refine ⟨?_, ?_⟩
  · cases h.phase with
    | idle hw hr hp hrx' => exact .idle hw hr hp (hrx hrx')
    | reading t' ts shown hread hw hr hp hrx' hinfo =>
      exact .reading t' _ (happend shown) hread hw hr hp (hrx hrx') hinfo
    | writing t' ts shown hread hw hr hp hrx' hbe hdata =>
      exact .writing t' _ (happend shown) hread hw hr hp (hrx hrx') hbe hdata
    | addressed t' ts shown hread hw hr hp hrx' hbe =>
      refine .addressed t' _ (happend shown) hread hw hr hp ?_ hbe
      change s.fifoRx ++ t.packets = _
      rw [hrx', List.cons_append, hrx rfl]
  · change (s.queue ++ [t]).countP _ + s.fifoTx.length ≤ txDepth
    have hroom := h.room
    rw [Bridge.reads] at hroom ht
    rw [List.countP_append, List.countP_singleton]
    split
    · next hread =>
      have := ht hread
      omega
    · exact hroom

theorem Bridge.Inv.transmit (h : s.Inv) : (s.next B .transmit).Inv := by
  refine ⟨h.phase.frame s.fifo _ _ s.calls, ?_⟩
  change s.reads + s.fifoTx.tail.length ≤ txDepth
  rw [List.length_tail]
  exact Nat.le_trans (Nat.add_le_add_left (Nat.sub_le _ _) _) h.room

/-- **The step lemma.** -/
theorem Bridge.Inv.next (h : s.Inv) {a : Action H} (ha : Enabled s a) :
    (s.next B a).Inv ∧
      Relation.ReflTransGen (InOrder.Step B) s.atOnce (s.next B a).atOnce := by
  cases a with
  | arrive t => exact ⟨h.arrive ha, .single (.arrive s.atOnce t)⟩
  | transmit =>
    refine ⟨h.transmit, ?_⟩
    have hsame : (s.next B .transmit).atOnce = s.atOnce := by
      obtain ⟨c, rest, hc⟩ := List.exists_cons_of_ne_nil ha
      simp [Bridge.atOnce, Bridge.next, hc]
    rw [hsame]
  | cycle rxReady calls => exact h.cycle rxReady ha

theorem Bridge.Inv.init : ({} : Bridge H).Inv := ⟨.idle rfl rfl rfl rfl, Nat.zero_le _⟩

/-- **The board refines transactions at once.** -/
theorem bridge_simulates (B : Build) :
    (bridge B H).Simulates (inOrder B H) fun s a => s.Inv ∧ a = s.atOnce where
  init := by
    rintro s rfl
    exact ⟨{}, rfl, Bridge.Inv.init, rfl⟩
  step := by
    rintro s t a - ⟨h, rfl⟩ ⟨b, hb, rfl⟩
    obtain ⟨hinv, hsteps⟩ := h.next (B := B) hb
    exact ⟨_, hsteps, hinv, rfl⟩

/-! ### Draining -/

theorem callsReady_nil (f : PioFifo) : CallsReady f [] :=
  ⟨fun _ hc => absurd hc List.not_mem_nil, List.nodup_nil⟩

/-- Clocks without calls, in which a packet is there if there is one, and completions that are
sent. -/
def Quiet (B : Build) (s t : Bridge H) : Prop :=
  s.fifoTx ≠ [] ∧ s.next B .transmit = t ∨ s.next B (.cycle true []) = t

theorem Bridge.serve_histories (s : Bridge H) :
    (s.serve B).arrived = s.arrived ∧ (s.serve B).sent = s.sent ∧ (s.serve B).calls = s.calls := by
  rw [Bridge.serve]
  split
  · exact ⟨rfl, rfl, rfl⟩
  · split_ifs <;> exact ⟨rfl, rfl, rfl⟩

/-- A clock adds nothing to what has happened but its calls. -/
theorem Bridge.cycle_histories (s : Bridge H) (rxReady : Bool) (cs : List Call) :
    (s.cycle B rxReady cs).arrived = s.arrived ∧ (s.cycle B rxReady cs).sent = s.sent ∧
      (s.cycle B rxReady cs).calls = s.calls ++ cs := by
  obtain ⟨harrived, hsent, hcalls⟩ := Bridge.serve_histories (B := B) s
  have hprocess : ∀ (u : Bridge H) (w r : Bool),
      (u.process w r).arrived = u.arrived ∧ (u.process w r).sent = u.sent ∧
        (u.process w r).calls = u.calls := by
    intro u w r
    rw [Bridge.process]
    rcases u.fifoRx with _ | ⟨_ | _, rest⟩
    · exact ⟨rfl, rfl, rfl⟩
    · dsimp only
      split_ifs <;> exact ⟨rfl, rfl, rfl⟩
    · dsimp only
      split_ifs <;> exact ⟨rfl, rfl, rfl⟩
  rw [Bridge.cycle]
  split
  · obtain ⟨h1, h2, h3⟩ := hprocess (((s.serve B).settle).callAll cs) s.rWriteEnable s.rReadEnable
    exact ⟨h1.trans harrived, h2.trans hsent, h3.trans (congrArg (· ++ cs) hcalls)⟩
  · exact ⟨harrived, hsent, congrArg (· ++ cs) hcalls⟩

/-- A clock moves a packet or a transaction on, when there is one. -/
theorem Bridge.Inv.cycle_toGo (h : s.Inv) (htx : s.fifoTx = []) (hpos : 0 < s.toGo) :
    (s.cycle B true []).toGo < s.toGo := by
  obtain ⟨-, hinv, -, hphase⟩ := h.serve (B := B)
  have hcall : ((s.serve B).settle).callAll [] = (s.serve B).settle := by
    rw [Bridge.callAll, List.append_nil]
    rfl
  rw [Bridge.cycle, hcall, if_pos rfl]
  rcases hphase with ⟨hw, hr, hsame⟩ | ⟨hen, hp, hlt⟩
  · have hrx : s.fifoRx ≠ [] := by
      intro hnil
      simp [Bridge.toGo, hnil, htx, hw, hr] at hpos
    have hsettle : s.settle.toGo = s.toGo := by
      simp only [Bridge.toGo, Bridge.settle, hw, hr]
    rw [hsame] at hinv
    rw [hsame, hw, hr, ← hsettle]
    exact (hinv.process rfl rfl).2.2 hrx
  · rw [Bridge.process_of_enabled (s := (s.serve B).settle) hp hen]
    exact hlt

/-- Nothing is on the way. -/
theorem Bridge.Inv.of_toGo (h : s.Inv) (hzero : s.toGo = 0) : s.queue = [] ∧ s.fifoTx = [] := by
  simp only [Bridge.toGo, Nat.add_eq_zero_iff, Nat.mul_eq_zero, List.length_eq_zero_iff] at hzero
  obtain ⟨⟨hrx, hen⟩, htx⟩ := hzero
  have hrx : s.fifoRx = [] := hrx.resolve_left (by decide)
  have hen : (s.rWriteEnable || s.rReadEnable) = false :=
    Bool.toNat_eq_zero.mp (hen.resolve_left (by decide))
  refine ⟨?_, htx⟩
  cases h.phase with
  | idle hw hr hp hrx' =>
    rw [hrx] at hrx'
    rcases hq : s.queue with _ | ⟨t, ts⟩
    · rfl
    · rw [hq, packets_cons, Transaction.packets] at hrx'
      split_ifs at hrx' <;> cases hrx'
  | reading _ _ _ _ hw hr => simp [hw, hr] at hen
  | writing _ _ _ _ hw hr => simp [hw, hr] at hen
  | addressed _ _ _ _ _ _ _ hrx' =>
    rw [hrx] at hrx'
    cases hrx'

/-- The board as it was, but for what it has done. -/
structure Bridge.Later (B : Build) (s t : Bridge H) : Prop where
  inv : t.Inv
  steps : Relation.ReflTransGen (InOrder.Step B) s.atOnce t.atOnce
  arrived : t.arrived = s.arrived
  calls : t.calls = s.calls

theorem Bridge.progresses (B : Build) (s : Bridge H) :
    Draining.Progresses (Quiet B) Bridge.toGo (Bridge.Later B s) := by
  intro t h hpos
  by_cases htx : t.fifoTx = []
  · obtain ⟨hinv, hsteps⟩ := h.inv.cycle (B := B) true (callsReady_nil t.fifo)
    obtain ⟨harrived, -, hcalls⟩ := t.cycle_histories (B := B) true []
    rw [List.append_nil] at hcalls
    exact ⟨_, .inr rfl,
      ⟨hinv, h.steps.trans hsteps, harrived.trans h.arrived, hcalls.trans h.calls⟩,
      h.inv.cycle_toGo htx hpos⟩
  · obtain ⟨hinv, hsteps⟩ := h.inv.next (B := B) (a := .transmit) htx
    refine ⟨_, .inl ⟨htx, rfl⟩, ⟨hinv, h.steps.trans hsteps, h.arrived, h.calls⟩, ?_⟩
    have hlen := List.length_pos_iff.mpr htx
    simp only [Bridge.toGo, Bridge.next, List.length_tail]
    omega

/-! ### Transactions in order -/

/-- Each read is completed once, in the order in which they came. -/
theorem InOrder.completions_eq {a : InOrder H} (ha : (inOrder B H).Reachable a) :
    a.completions.map (·.info) ++ (a.pending.filter (·.info.read)).map (·.info) =
      (a.arrived.filter (·.info.read)).map (·.info) := by
  refine TransitionSystem.Reachable.invariant (P := fun a : InOrder H =>
    a.completions.map (·.info) ++ (a.pending.filter (·.info.read)).map (·.info) =
      (a.arrived.filter (·.info.read)).map (·.info)) ?_ ?_ ha
  · rintro a rfl
    rfl
  · intro a b h hstep
    cases hstep with
    | arrive t =>
      simp only [List.filter_append, List.map_append, ← List.append_assoc, h]
    | perform t rest hpending =>
      rw [hpending, List.filter_cons] at h
      rw [InOrder.perform]
      split
      · next hread =>
        rw [if_pos hread] at h
        simpa [Info.complete] using h
      · next hread =>
        rw [if_neg hread] at h
        exact h
    | call c _ => exact h

/-- What is said of a state of the board. -/
structure Bridge.Ordered (B : Build) (s : Bridge H) : Prop where
  /-- The registers, the completions and the calls are what they are where each transaction happens
  at once, in the order in which they came. -/
  atOnce : (inOrder B H).Reachable s.atOnce
  /-- When nothing new comes, all transactions are done some clocks later, and each read has been
  completed, once and in order. -/
  drains : ∃ t, Relation.ReflTransGen (Quiet B) s t ∧ (inOrder B H).Reachable t.atOnce ∧
    t.queue = [] ∧ t.arrived = s.arrived ∧ t.calls = s.calls ∧
    t.sent.map (·.info) = (s.arrived.filter (·.info.read)).map (·.info)

/-- **In order.** What the rules make of the packets is the transactions, one at a time. -/
theorem bridge_in_order (hs : (bridge B H).Reachable s) : s.Ordered B := by
  obtain ⟨_, hreach, hinv, rfl⟩ := (bridge_simulates B).reachable hs
  obtain ⟨t, hst, ht, hzero⟩ := (Bridge.progresses B s).exists_drained ⟨hinv, .refl, rfl, rfl⟩
  obtain ⟨hqueue, htx⟩ := ht.inv.of_toGo hzero
  have hreach' := hreach.steps ht.steps
  refine ⟨hreach, t, hst, hreach', hqueue, ht.arrived, ht.calls, ?_⟩
  have hcompleted := InOrder.completions_eq hreach'
  simpa [Bridge.atOnce, hqueue, htx, ht.arrived] using hcompleted

/-- The host writes a byte, with a long address. -/
def longWrite (byte : BitVec 8) : Transaction Unit where
  info :=
    { header := (), dw0 := 0, addr := 0, firstBE := 0xf, bar := 0x04, read := false, dw3 := false }
  data := byteSwap (byte.setWidth 32)

/-- The address comes first and is stored, and the data some clocks later. -/
theorem bridge_in_order_longWrite :
    ∃ s : Bridge Unit, (bridge ⟨1, 2⟩ Unit).Reachable s ∧ s.fifo.respQ = [0x41] ∧
      s.Ordered ⟨1, 2⟩ := by
  have h0 : (bridge ⟨1, 2⟩ Unit).Reachable _ := .init rfl
  have h1 := h0.step ⟨.arrive (longWrite 0x41), fun h => (by cases h), rfl⟩
  have h2 := h1.step ⟨.cycle true [], callsReady_nil _, rfl⟩
  have h3 := h2.step ⟨.cycle false [], callsReady_nil _, rfl⟩
  have h4 := h3.step ⟨.cycle true [], callsReady_nil _, rfl⟩
  have h5 := h4.step ⟨.cycle true [], callsReady_nil _, rfl⟩
  exact ⟨_, h5, by decide, bridge_in_order h5⟩

end PcieXupv5

end LeapPlatforms
