import LeapPlatforms.PcieXupv5.ServerDelivery

/-!
# The host does not wait forever

When the board's client takes the bytes that are there, a byte that was refused is accepted when it
is written again, and `Write` returns. `Read` returns when there are as many bytes as it asks for.

## Main definitions

* `Goes` — the steps without new work
* `Server.Runs`, `Server.Settled` — the host as it was, and the board when it has nothing to do
* `Server.rank` — how far the threads still have to go

## Main results

* `Server.Inv.exists_settled` — the board can always do all that was issued
* `Server.Settled.send`, `Server.Settled.receive` — the threads go on
* `server_delivers` — over every run
-/

namespace LeapPlatforms

namespace PcieXupv5

variable {B : Build} {W : Windows} {s : Server}

/-! ### Without new work -/

/-- What goes on when the host and the board's client ask for nothing new: the client takes the
bytes that are there. -/
def HostAction.Goes : HostAction → Prop
  | .transmit | .send | .receive => True
  | .cycle _ calls => ∀ c ∈ calls, c.given = none
  | .write _ | .read _ | .probe => False

/-- A step without new work. -/
def Goes (B : Build) (W : Windows) (s t : Server) : Prop :=
  ∃ a : HostAction, a.Goes ∧ a.Ready s ∧ s.next B W a = some t

/-- What the board's client took. -/
def Server.taken (s : Server) : List (BitVec 8) := s.board.calls.filterMap Call.taken

/-- What the board's client gave. -/
def Server.given (s : Server) : List (BitVec 8) := s.board.calls.filterMap Call.given

/-- The host as it was, with the board some steps later. -/
structure Server.Runs (B : Build) (W : Windows) (s : Server) (b : Bridge Thread) : Prop where
  goes : Relation.ReflTransGen (Goes B W) s { s with board := b }
  inv : Server.Inv W { s with board := b }
  writer : Relation.ReflTransGen (WriterView.Step W)
    (s.board.atOnce.writerView (s.answered .writer)) (b.atOnce.writerView (s.answered .writer))
  reader : Relation.ReflTransGen (ReaderView.Step W)
    (s.board.atOnce.readerView (s.answered .reader)) (b.atOnce.readerView (s.answered .reader))
  given : b.calls.filterMap Call.given = s.given

theorem Server.Inv.runs (h : s.Inv W) : s.Runs B W s.board :=
  ⟨.refl, h, .refl, .refl, rfl⟩

/-- The views, some steps later. -/
theorem Server.Seen.views {a b : InOrder Thread} (h : s.Seen W a)
    (hsteps : Relation.ReflTransGen (InOrder.Step B) a b) (harrived : b.arrived = a.arrived) :
    Relation.ReflTransGen (WriterView.Step W) (a.writerView (s.answered .writer))
        (b.writerView (s.answered .writer)) ∧
      Relation.ReflTransGen (ReaderView.Step W) (a.readerView (s.answered .reader))
        (b.readerView (s.answered .reader)) := by
  have hall := InOrder.steps_invariant (B := B) (P := fun b => s.Seen W b ∧
    Relation.ReflTransGen (WriterView.Step W) (a.writerView (s.answered .writer))
        (b.writerView (s.answered .writer)) ∧
      Relation.ReflTransGen (ReaderView.Step W) (a.readerView (s.answered .reader))
        (b.readerView (s.answered .reader))) ?_ ?_ hsteps harrived ⟨h, .refl, .refl⟩
  · exact hall.2
  · rintro b t rest ⟨hb, hw, hr⟩ hp
    have ht : W.Issued t := hb.issued t (hp ▸ List.mem_cons_self)
    exact ⟨hb.perform hp, hw.tail (writerView_perform ht hp (hb.answered .writer)),
      hr.tail (readerView_perform ht hp (hb.answered .reader))⟩
  · rintro b _ ⟨hb, hw, hr⟩ hc
    exact ⟨hb.call hc, hw.tail (writerView_call hc), hr.tail (readerView_call _)⟩

/-- The board does something by itself. -/
theorem Server.Runs.act {b : Bridge Thread} (h : s.Runs B W b) {a : Action Thread}
    {act : HostAction} (hact : act.Goes) (ha : Enabled b a)
    (hready : act.Ready { s with board := b })
    (hnext : Server.next B W { s with board := b } act = some { s with board := b.next B a })
    (harrived : (b.next B a).arrived = b.arrived)
    (hgiven : (b.next B a).calls.filterMap Call.given = b.calls.filterMap Call.given) :
    s.Runs B W (b.next B a) := by
  obtain ⟨-, hsteps⟩ := h.inv.board.next (B := B) ha
  obtain ⟨hw, hr⟩ := h.inv.seen.views hsteps harrived
  exact ⟨h.goes.tail ⟨act, hact, hready, hnext⟩, h.inv.next hready hnext, h.writer.trans hw,
    h.reader.trans hr, hgiven.trans h.given⟩

/-- The board does what was issued, and sends all completions. -/
theorem Server.Inv.exists_idle (h : s.Inv W) : ∃ b, s.Runs B W b ∧ b.toGo = 0 := by
  have hprogress : Draining.Progresses (Quiet B) Bridge.toGo (s.Runs B W) := by
    intro b hb hpos
    by_cases htx : b.fifoTx = []
    · obtain ⟨harrived, -, hcalls⟩ := b.cycle_histories (B := B) true []
      have hgoes : (HostAction.cycle true []).Goes := fun _ hc => absurd hc List.not_mem_nil
      refine ⟨_, .inr rfl, hb.act hgoes (a := .cycle true []) (callsReady_nil _) (callsReady_nil _)
        rfl harrived ?_, hb.inv.board.cycle_toGo htx hpos⟩
      rw [Bridge.next, hcalls, List.append_nil]
    · have hgoes : HostAction.transmit.Goes := trivial
      refine ⟨_, .inl ⟨htx, rfl⟩, hb.act hgoes htx trivial (if_pos htx) rfl rfl, ?_⟩
      have hlen := List.length_pos_iff.mpr htx
      simp only [Bridge.toGo, Bridge.next, List.length_tail]
      omega
  obtain ⟨b, -, hb, hzero⟩ := hprogress.exists_drained h.runs
  exact ⟨b, hb, hzero⟩

/-- A clock of a board that has nothing to do. -/
theorem Bridge.Inv.cycle_idle {b : Bridge Thread} (h : b.toGo = 0) (cs : List Call) :
    (b.cycle B false cs).toGo = 0 ∧
      (b.cycle B false cs).fifo = cs.foldl PioFifo.call b.fifo := by
  simp only [Bridge.toGo, Nat.add_eq_zero_iff, Nat.mul_eq_zero, List.length_eq_zero_iff] at h
  obtain ⟨⟨hrx, hen⟩, htx⟩ := h
  have hen : (b.rWriteEnable || b.rReadEnable) = false :=
    Bool.toNat_eq_zero.mp (hen.resolve_left (by decide))
  obtain ⟨hw, hr⟩ := Bool.or_eq_false_iff.mp hen
  rw [Bridge.cycle, Bridge.serve_of_disabled hw hr]
  have hrx := hrx.resolve_left (by decide)
  refine ⟨?_, rfl⟩
  simp [Bridge.toGo, Bridge.callAll, Bridge.settle, hrx, htx]

/-- The client takes what is there. -/
theorem Server.Runs.exists_empty {b : Bridge Thread} (h : s.Runs B W b) (hzero : b.toGo = 0) :
    ∃ b', s.Runs B W b' ∧ b'.toGo = 0 ∧ b'.fifo.respQ = [] := by
  induction hn : b.fifo.respQ generalizing b with
  | nil => exact ⟨b, h, hzero, hn⟩
  | cons r rest ih =>
    obtain ⟨hidle, hfifo⟩ := Bridge.Inv.cycle_idle (B := B) hzero [.resp r]
    obtain ⟨harrived, -, hcalls⟩ := b.cycle_histories (B := B) false [.resp r]
    have hready : CallsReady b.fifo [.resp r] := by
      refine ⟨fun c hc => ?_, by simp⟩
      rw [List.mem_singleton.mp hc]
      exact congrArg List.head? hn
    have hgoes : (HostAction.cycle false [.resp r]).Goes := by
      intro c hc
      rw [List.mem_singleton.mp hc]
      rfl
    have hb := h.act hgoes (a := .cycle false [.resp r]) hready hready rfl harrived (by
        rw [Bridge.next, hcalls, List.filterMap_append]
        exact List.append_nil _)
    refine ih hb hidle ?_
    rw [Bridge.next, hfifo]
    exact congrArg List.tail hn

/-- The board has nothing to do, and the client has taken all bytes. -/
structure Server.Settled (W : Windows) (s : Server) : Prop where
  inv : s.Inv W
  toGo : s.board.toGo = 0
  respQ : s.board.fifo.respQ = []

theorem Server.Inv.exists_settled (h : s.Inv W) :
    ∃ b, s.Runs B W b ∧ Server.Settled W { s with board := b } := by
  obtain ⟨b, hb, hzero⟩ := h.exists_idle (B := B)
  obtain ⟨b', hb', hzero', hempty⟩ := hb.exists_empty hzero
  exact ⟨b', hb', hb'.inv, hzero', hempty⟩

/-- Nothing is on the way. -/
theorem Server.Settled.queue (h : s.Settled W) : s.board.queue = [] ∧ s.board.fifoTx = [] :=
  h.inv.board.of_toGo h.toGo

/-- What a thread waits for is there. -/
theorem Server.Settled.answer (h : s.Settled W) {thread : Thread} {data : BitVec 32}
    {rest : List (BitVec 32)}
    (ha : answers thread (s.answered thread) s.board.atOnce.completions = data :: rest) :
    s.answer thread = some data := by
  have hsent : s.board.atOnce.completions = s.board.sent := by
    rw [Bridge.atOnce, h.queue.2, List.append_nil]
  rw [hsent, answers] at ha
  rw [Server.answer, ← List.head?_drop, ← List.head?_map]
  exact congrArg List.head? ha

/-! ### The writer -/

/-- How far the writer still has to go. A byte that was refused is written once more. -/
def Writer.rank (count : BitVec 32) : Writer → ℕ
  | .idle => 0
  | .recounting _ wCount => if count = wCount then 7 else 1
  | .posted _ wCount => if count = wCount then 8 else 2
  | .counted _ _ => 4
  | .counting _ => 5
  | .start _ => 6

/-- How far the writer still has to go, with all that it was given. -/
def Server.writerRank (s : Server) : ℕ :=
  s.writer.rank s.board.fifo.bar2WPacketCount + 9 * s.toWrite.length

section Writer

variable {v v' : WriterView}

theorem WriterView.count_of_quiet (hsteps : Relation.ReflTransGen (WriterView.Step W) v v')
    (h : v.pending = []) : v'.count = v.count := by
  have hboth : v'.pending = [] ∧ v'.count = v.count := by
    induction hsteps with
    | refl => exact ⟨h, rfl⟩
    | tail _ hstep ih =>
      obtain ⟨hp, -, -, hcount⟩ := hstep.of_quiet ih.1
      exact ⟨hp.trans ih.1, hcount.trans ih.2⟩
  exact hboth.2

theorem WriterView.Asked.steps (hsteps : Relation.ReflTransGen (WriterView.Step W) v v')
    (h : v.Asked W) : v'.Asked W ∧ v'.count = v.count := by
  induction hsteps with
  | refl => exact ⟨h, rfl⟩
  | tail _ hstep ih =>
    obtain ⟨hasked, -, hcount⟩ := hstep.of_asked ih.1
    exact ⟨hasked, hcount.trans ih.2⟩

/-- The answer of a thread of which nothing is pending. -/
theorem WriterView.Asked.of_empty (h : v.Asked W) (hp : v.pending = []) :
    v.answers = [v.count] := by
  rcases h with ⟨hne, -⟩ | ⟨-, ha⟩
  · exact absurd (hne.symm.trans hp) (List.cons_ne_nil _ _)
  · exact ha

/-- A byte that there is room for is accepted. -/
theorem WriterView.accepted_of_room {byte : BitVec 8} {wCount : BitVec 32}
    (hsteps : Relation.ReflTransGen (WriterView.Step W) v v') (hp : v.pending = [W.writeSys byte])
    (hcount : v.count = wCount) (hroom : v.respQ.length < fifoDepth) :
    v'.pending = [W.writeSys byte] ∧ v'.count = wCount ∧ v'.respQ.length < fifoDepth ∨
      v'.pending = [] ∧ v'.count = wCount + 1 := by
  induction hsteps with
  | refl => exact .inl ⟨hp, hcount, hroom⟩
  | tail _ hstep ih =>
    rcases ih with ⟨hp, hcount, hroom⟩ | ⟨hp, hcount⟩
    · obtain ⟨-, ⟨hp', hb, hlen⟩ | ⟨hp', hb | ⟨hfull, -⟩⟩⟩ := hstep.of_write hp ⟨rfl, hcount⟩
      · exact .inl ⟨hp'.trans hp, hb.count, hlen.trans_lt hroom⟩
      · exact .inr ⟨hp', hb.count⟩
      · exact absurd hroom hfull
    · obtain ⟨hp', -, -, hcount'⟩ := hstep.of_quiet hp
      exact .inr ⟨hp'.trans hp, hcount'.trans hcount⟩

end Writer

/-- **The writer goes on**, as long as it has something to do. -/
theorem Server.Settled.send (h : s.Settled W) (hpos : 0 < s.writerRank) :
    ∃ t b, s.send B W = some t ∧ t.Runs B W b ∧ Server.Settled W { t with board := b } ∧
      Server.writerRank { t with board := b } < s.writerRank := by
  obtain ⟨sent, hsends, -⟩ := h.inv.seen.writer
  have hpending : (s.board.atOnce.writerView (s.answered .writer)).pending = [] :=
    congrArg (ofThread .writer) h.queue.1
  have hdone : ∀ {t}, s.send B W = some t →
      (∀ b, t.Runs B W b → Server.Settled W { t with board := b } →
        Server.writerRank { t with board := b } < s.writerRank) →
      ∃ t b, s.send B W = some t ∧ t.Runs B W b ∧ Server.Settled W { t with board := b } ∧
        Server.writerRank { t with board := b } < s.writerRank := by
    intro t ht hlt
    have hinv := h.inv.send ht
    obtain ⟨b, hb, hsettled⟩ := hinv.exists_settled (B := B)
    exact ⟨t, b, ht, hb, hsettled, hlt b hb hsettled⟩
  cases hwriter : s.writer with
  | idle =>
    rw [Server.writerRank, hwriter, Writer.rank, Nat.zero_add] at hpos
    obtain ⟨byte, rest, hrest⟩ := List.exists_cons_of_length_pos (Nat.pos_of_mul_pos_left hpos)
    refine hdone (by rw [Server.send, hwriter, hrest]) fun b _ _ => ?_
    simp only [Server.writerRank, hwriter, Writer.rank, hrest, List.length_cons]
    omega
  | start byte =>
    refine hdone (by rw [Server.send, hwriter]) fun b _ _ => ?_
    simp only [Server.writerRank, hwriter, Writer.rank, Server.act]
    omega
  | counting byte =>
    rw [hwriter] at hsends
    cases hsends with
    | counting _ hasked hsent =>
      have ha := h.answer (hasked.of_empty hpending)
      refine hdone (by rw [Server.send, hwriter, ha]; rfl) fun b _ _ => ?_
      simp only [Server.writerRank, hwriter, Writer.rank, Server.advance]
      omega
  | counted byte wCount =>
    rw [hwriter] at hsends
    cases hsends with
    | counted _ _ hq hb =>
      refine hdone (by rw [Server.send, hwriter]) fun b hb' hsettled => ?_
      have hpending' :
          ofThread .writer (s.board.queue ++ [W.writeSys byte]) = [W.writeSys byte] := by
        rw [h.queue.1]
        rfl
      have hroom : s.board.fifo.respQ.length < fifoDepth := by
        rw [h.respQ]
        decide
      rcases WriterView.accepted_of_room hb'.writer hpending' hb.count hroom with ⟨hp, -⟩ | ⟨-, hc⟩
      · have hempty : ofThread .writer b.queue = [] := congrArg (ofThread .writer) hsettled.queue.1
        exact absurd (hp.symm.trans hempty) (List.cons_ne_nil _ _)
      · change b.fifo.bar2WPacketCount = wCount + 1 at hc
        have hne : wCount + 1 ≠ wCount := by simp
        simp only [Server.writerRank, hwriter, Writer.rank, Server.act, hc, if_neg hne]
        omega
  | posted byte wCount =>
    rw [hwriter] at hsends
    cases hsends with
    | posting _ _ hp => exact absurd (hp.symm.trans hpending) (List.cons_ne_nil _ _)
    | posted _ _ hq hd =>
      refine hdone (by rw [Server.send, hwriter]) fun b hb' _ => ?_
      have hpending' : ofThread .writer (s.board.queue ++ [W.readCount]) = [W.readCount] := by
        rw [h.queue.1]
        rfl
      obtain ⟨-, hc⟩ := WriterView.Asked.steps hb'.writer (.inl ⟨hpending', hq.answers⟩)
      change b.fifo.bar2WPacketCount = s.board.fifo.bar2WPacketCount at hc
      simp only [Server.writerRank, hwriter, Writer.rank, Server.act, hc]
      split <;> omega
  | recounting byte wCount =>
    rw [hwriter] at hsends
    cases hsends with
    | both _ _ hp => exact absurd (hp.symm.trans hpending) (List.cons_ne_nil _ _)
    | recounting _ _ hasked hd =>
      have ha := h.answer (hasked.of_empty hpending)
      refine hdone (by rw [Server.send, hwriter, ha]; rfl) fun b _ _ => ?_
      have hlt : ∀ count newWCount : BitVec 32,
          (if newWCount = wCount then Writer.start byte else .idle).rank count <
            (Writer.recounting byte wCount).rank newWCount := by
        intro count newWCount
        by_cases hc : newWCount = wCount
        · rw [if_pos hc, Writer.rank, Writer.rank, if_pos hc]
          decide
        · rw [if_neg hc, Writer.rank, Writer.rank, if_neg hc]
          decide
      rw [Server.writerRank, Server.writerRank, hwriter]
      exact Nat.add_lt_add_right (hlt _ _) _

/-! ### The reader -/

/-- What the reader gets next. -/
def Server.next? (s : Server) : Option (BitVec 32) :=
  (answers .reader (s.answered .reader) s.board.atOnce.completions).head?

/-- How far the reader still has to go, when there are bytes for it. A byte that was not there yet
is asked for once more. -/
def Reader.rank (answer : Option (BitVec 32)) : Reader → ℕ
  | .receiving => if answer = some noData then 4 else 1
  | .probing => 4
  | .idle => 3
  | .start => 2

/-- The bytes that the reader has not returned yet. -/
def Server.unread (s : Server) : ℕ := s.given.length - s.hostRead.length

/-- The reader has returned what it was asked for, or all bytes that there are. -/
def Server.Fed (s : Server) : Prop := s.unread = 0 ∨ s.reader = .idle ∧ s.toRead = 0

instance (s : Server) : Decidable s.Fed := inferInstanceAs (Decidable (_ ∨ _))

/-- How far the reader still has to go, with all bytes that there are. -/
def Server.readerRank (s : Server) : ℕ :=
  if s.Fed then 0 else 4 * s.unread + s.reader.rank s.next?

theorem Server.readerRank_le (s : Server) :
    s.readerRank ≤ 4 * s.unread + s.reader.rank s.next? := by
  rw [Server.readerRank]
  split
  · exact Nat.zero_le _
  · exact Nat.le_refl _

theorem Server.Runs.unread {b : Bridge Thread} (h : s.Runs B W b) :
    Server.unread { s with board := b } = s.unread := by
  rw [Server.unread, Server.given, h.given]
  rfl

section Reader

variable {v v' : ReaderView}

theorem ReaderView.answers_of_quiet (hsteps : Relation.ReflTransGen (ReaderView.Step W) v v')
    (h : v.pending = []) : v'.answers = v.answers := by
  have hboth : v'.pending = [] ∧ v'.answers = v.answers := by
    induction hsteps with
    | refl => exact ⟨h, rfl⟩
    | tail _ hstep ih =>
      obtain ⟨hp, ha⟩ := hstep.of_quiet ih.1
      exact ⟨hp.trans ih.1, ha.trans ih.2⟩
  exact hboth.2

/-- The answer of a reader of which nothing is pending. -/
theorem ReaderView.Asked.of_empty (h : v.Asked W) (hp : v.pending = []) :
    ∃ data, v.answers = [data] := by
  rcases h with ⟨hne, -⟩ | ⟨-, ha⟩
  · exact absurd (hne.symm.trans hp) (List.cons_ne_nil _ _)
  · exact ha

/-- A byte that is there is read. -/
theorem ReaderView.byte_of_reqQ (hsteps : Relation.ReflTransGen (ReaderView.Step W) v v')
    (hp : v.pending = [W.readSys]) (ha : v.answers = []) (hreq : v.reqQ ≠ []) :
    v'.pending = [W.readSys] ∧ v'.answers = [] ∧ v'.reqQ ≠ [] ∨
      v'.pending = [] ∧ ∃ byte : BitVec 8, v'.answers = [byte.setWidth 32] := by
  induction hsteps with
  | refl => exact .inl ⟨hp, ha, hreq⟩
  | tail _ hstep ih =>
    rcases ih with ⟨hp, ha, hreq⟩ | ⟨hp, byte, ha⟩
    · cases hstep with
      | none => exact .inl ⟨hp, ha, hreq⟩
      | byte byte bytes rest h hbytes =>
        obtain rfl : [] = rest := (List.cons.inj (hp.symm.trans h)).2
        exact .inr ⟨rfl, byte, congrArg (· ++ [byte.setWidth 32]) ha⟩
      | noData rest h hbytes => exact absurd hbytes hreq
      | give byte => exact .inl ⟨hp, ha, List.append_ne_nil_of_left_ne_nil hreq _⟩
    · obtain ⟨hp', ha'⟩ := hstep.of_quiet hp
      exact .inr ⟨hp'.trans hp, byte, ha'.trans ha⟩

end Reader

/-- **The reader goes on**, as long as there is a byte that it was asked for. -/
theorem Server.Settled.receive (h : s.Settled W) (hfed : ¬ s.Fed) :
    ∃ t b, s.receive B W = some t ∧ t.Runs B W b ∧ Server.Settled W { t with board := b } ∧
      Server.readerRank { t with board := b } < s.readerRank := by
  have hgiven := h.inv.seen.reader.given
  have hwaits := h.inv.seen.reader.waits
  have hpending : (s.board.atOnce.readerView (s.answered .reader)).pending = [] :=
    congrArg (ofThread .reader) h.queue.1
  have hpos : 0 < s.unread := Nat.pos_of_ne_zero fun hzero => hfed (.inl hzero)
  have hrank : s.readerRank = 4 * s.unread + s.reader.rank s.next? := if_neg hfed
  have hdone : ∀ {t}, s.receive B W = some t →
      (∀ b, t.Runs B W b → Server.Settled W { t with board := b } →
        4 * t.unread + t.reader.rank (Server.next? { t with board := b }) <
          4 * s.unread + s.reader.rank s.next?) →
      ∃ t b, s.receive B W = some t ∧ t.Runs B W b ∧ Server.Settled W { t with board := b } ∧
        Server.readerRank { t with board := b } < s.readerRank := by
    intro t ht hlt
    have hinv := h.inv.receive ht
    obtain ⟨b, hb, hsettled⟩ := hinv.exists_settled (B := B)
    refine ⟨t, b, ht, hb, hsettled, (Server.readerRank_le _).trans_lt ?_⟩
    rw [hb.unread, hrank]
    exact hlt b hb hsettled
  have hfinish : ∀ t : Server, t.given = s.given → t.hostRead = s.hostRead →
      t.finish.unread + 1 = s.unread := by
    intro t hgiven hread
    rw [Server.unread] at hpos
    change t.given.length - (t.hostRead ++ [_]).length + 1 = s.given.length - s.hostRead.length
    rw [hgiven, hread, List.length_append, List.length_singleton]
    omega
  cases hreader : s.reader with
  | idle =>
    have htoRead : s.toRead ≠ 0 := fun hzero => hfed (.inr ⟨hreader, hzero⟩)
    by_cases hpopped : s.dataPopped = true
    · refine hdone (by rw [Server.receive, hreader, if_neg htoRead, if_pos hpopped]) fun b _ _ => ?_
      have hless := hfinish s rfl rfl
      simp only [Server.finish, Reader.rank] at hless ⊢
      omega
    · refine hdone (by rw [Server.receive, hreader, if_neg htoRead, if_neg hpopped]) fun b _ _ => ?_
      rw [hreader]
      exact Nat.lt_succ_self _
  | start =>
    refine hdone (by rw [Server.receive, hreader]) fun b hb hsettled => ?_
    rw [hreader] at hwaits
    cases hwaits with
    | start hq =>
      have hpopped := h.inv.not_popped (by rw [hreader]; exact Reader.noConfusion)
      have hpending' : ofThread .reader (s.board.queue ++ [W.readSys]) = [W.readSys] := by
        rw [h.queue.1]
        rfl
      have hreq : s.board.fifo.reqQ ≠ [] := by
        intro hnil
        rw [Server.popped, hpopped, ReaderView.bytes, hq.answers] at hgiven
        simp only [InOrder.readerView, Bridge.atOnce, hnil] at hgiven
        simp [Server.unread, Server.given, ← hgiven] at hpos
      rcases ReaderView.byte_of_reqQ hb.reader hpending' hq.answers hreq with
        ⟨hp, -, -⟩ | ⟨-, byte, ha⟩
      · have hempty : ofThread .reader b.queue = [] := congrArg (ofThread .reader) hsettled.queue.1
        exact absurd (hp.symm.trans hempty) (List.cons_ne_nil _ _)
      · have hnext : (answers .reader (s.answered .reader) b.atOnce.completions).head? =
            some (byte.setWidth 32) := congrArg List.head? ha
        have hne : some (byte.setWidth 32) ≠ some noData := fun heq =>
          setWidth_ne_noData byte (Option.some.inj heq)
        rw [hreader]
        change 4 * s.unread + Reader.receiving.rank
          (answers .reader (s.answered .reader) b.atOnce.completions).head? < _
        rw [hnext, Reader.rank, if_neg hne]
        exact Nat.lt_succ_self _
  | receiving =>
    rw [hreader] at hwaits
    cases hwaits with
    | receiving hasked =>
      obtain ⟨data, hdata⟩ := hasked.of_empty hpending
      have ha := h.answer hdata
      have hnext : s.next? = some data := congrArg List.head? hdata
      rw [hreader, hnext] at hdone
      by_cases hno : data = noData
      · refine hdone (t := { s.advance .reader with poppedData := data, reader := .start })
          (by rw [Server.receive, hreader, ha]; exact congrArg some (if_pos hno)) fun b _ _ => ?_
        change 4 * s.unread + 2 < 4 * s.unread + if some data = some noData then 4 else 1
        rw [if_pos (congrArg some hno)]
        omega
      · refine hdone (t := Server.finish { s.advance .reader with poppedData := data })
          (by rw [Server.receive, hreader, ha]; exact congrArg some (if_neg hno)) fun b _ _ => ?_
        have hless := hfinish { s.advance .reader with poppedData := data } rfl rfl
        change 4 * Server.unread _ + 3 < 4 * s.unread + if some data = some noData then 4 else 1
        rw [if_neg fun heq => hno (Option.some.inj heq)]
        omega
  | probing =>
    rw [hreader] at hwaits
    cases hwaits with
    | probing hasked =>
      obtain ⟨data, hdata⟩ := hasked.of_empty hpending
      refine hdone (by rw [Server.receive, hreader, h.answer hdata]; rfl) fun b _ _ => ?_
      rw [hreader]
      exact Nat.lt_succ_self _

/-! ### Both threads -/

/-- How far all threads still have to go. -/
def Server.rank (s : Server) : ℕ := s.writerRank + s.readerRank

/-- What a thread leaves as it was. -/
theorem Server.send_frame {t : Server} (h : s.send B W = some t) :
    t.reader = s.reader ∧ t.toRead = s.toRead ∧ t.hostRead = s.hostRead ∧
      t.hostWrote = s.hostWrote ∧ t.given = s.given ∧
        t.board.atOnce.readerView (t.answered .reader) =
          s.board.atOnce.readerView (s.answered .reader) := by
  have hissue : ∀ (u : Transaction Thread), u.info.header = .writer →
      (s.board.next B (.arrive u)).atOnce.readerView (s.answered .reader) =
        s.board.atOnce.readerView (s.answered .reader) := by
    intro u hu
    have hne : u.info.header ≠ .reader := fun heq => Thread.noConfusion (hu.symm.trans heq)
    simp only [InOrder.readerView, Bridge.next, Bridge.atOnce, ofThread_append, if_neg hne,
      List.append_nil]
  have hadvance : (s.advance .writer).answered .reader = s.answered .reader :=
    Function.update_of_ne (show Thread.reader ≠ .writer by decide) (s.answered .writer + 1) _
  rw [Server.send] at h
  split at h
  · split at h
    · cases h
    · obtain rfl := Option.some.inj h
      exact ⟨rfl, rfl, rfl, rfl, rfl, rfl⟩
  · obtain rfl := Option.some.inj h
    exact ⟨rfl, rfl, rfl, rfl, rfl, hissue _ rfl⟩
  · obtain ⟨_, -, rfl⟩ := Option.map_eq_some_iff.mp h
    exact ⟨rfl, rfl, rfl, rfl, rfl, congrArg s.board.atOnce.readerView hadvance⟩
  · obtain rfl := Option.some.inj h
    exact ⟨rfl, rfl, rfl, rfl, rfl, hissue _ rfl⟩
  · obtain rfl := Option.some.inj h
    exact ⟨rfl, rfl, rfl, rfl, rfl, hissue _ rfl⟩
  · obtain ⟨_, -, rfl⟩ := Option.map_eq_some_iff.mp h
    exact ⟨rfl, rfl, rfl, rfl, rfl, congrArg s.board.atOnce.readerView hadvance⟩

theorem Server.receive_frame {t : Server} (h : s.receive B W = some t) :
    t.writer = s.writer ∧ t.toWrite = s.toWrite ∧ t.hostWrote = s.hostWrote ∧ t.given = s.given ∧
      t.board.atOnce.writerView (t.answered .writer) =
        s.board.atOnce.writerView (s.answered .writer) := by
  have hissue : (s.board.next B (.arrive W.readSys)).atOnce.writerView (s.answered .writer) =
      s.board.atOnce.writerView (s.answered .writer) := by
    have hne : W.readSys.info.header ≠ .writer := Thread.noConfusion
    simp only [InOrder.writerView, Bridge.next, Bridge.atOnce, ofThread_append, if_neg hne,
      List.append_nil]
  have hadvance : (s.advance .reader).answered .writer = s.answered .writer :=
    Function.update_of_ne (show Thread.writer ≠ .reader by decide) (s.answered .reader + 1) _
  rw [Server.receive] at h
  split at h
  · split at h
    · cases h
    · split at h
      all_goals
        obtain rfl := Option.some.inj h
        exact ⟨rfl, rfl, rfl, rfl, rfl⟩
  · obtain rfl := Option.some.inj h
    exact ⟨rfl, rfl, rfl, rfl, hissue⟩
  · obtain ⟨data, -, rfl⟩ := Option.map_eq_some_iff.mp h
    dsimp only
    split
    all_goals exact ⟨rfl, rfl, rfl, rfl, congrArg s.board.atOnce.writerView hadvance⟩
  · obtain ⟨_, -, rfl⟩ := Option.map_eq_some_iff.mp h
    exact ⟨rfl, rfl, rfl, rfl, congrArg s.board.atOnce.writerView hadvance⟩

/-- Settled some steps later, with what was asked for as it was. -/
structure Server.Later (W : Windows) (s t : Server) : Prop where
  settled : t.Settled W
  hostWrote : t.hostWrote = s.hostWrote
  given : t.given = s.given

/-- The threads go on as long as they can. -/
theorem Server.progresses (B : Build) (W : Windows) (s : Server) :
    Draining.Progresses (Relation.ReflTransGen (Goes B W)) Server.rank
      (s.Later W) := by
  intro t h hpos
  rcases Nat.eq_zero_or_pos t.writerRank with hzero | hw
  · have hfed : ¬ t.Fed := by
      intro hfed
      rw [Server.rank, hzero, Server.readerRank, if_pos hfed] at hpos
      exact Nat.lt_irrefl 0 hpos
    obtain ⟨u, b, hu, hb, hsettled, hlt⟩ := h.settled.receive (B := B) hfed
    obtain ⟨hwriter, htoWrite, hwrote, hgiven, hview⟩ := Server.receive_frame hu
    have hrank : Server.writerRank { u with board := b } = t.writerRank := by
      have hcount := WriterView.count_of_quiet hb.writer (by
        rw [hview]
        exact congrArg (ofThread .writer) h.settled.queue.1)
      rw [hview] at hcount
      change b.fifo.bar2WPacketCount = t.board.fifo.bar2WPacketCount at hcount
      rw [Server.writerRank, Server.writerRank, hwriter, htoWrite, hcount]
    refine ⟨_, .head ⟨.receive, trivial, trivial, hu⟩ hb.goes,
      ⟨hsettled, hwrote.trans h.hostWrote, (hb.given.trans hgiven).trans h.given⟩, ?_⟩
    rw [Server.rank, Server.rank]
    omega
  · obtain ⟨u, b, hu, hb, hsettled, hlt⟩ := h.settled.send (B := B) hw
    obtain ⟨hreader, htoRead, hread, hwrote, hgiven, hview⟩ := Server.send_frame hu
    have hrank : Server.readerRank { u with board := b } = t.readerRank := by
      have hunread : Server.unread { u with board := b } = t.unread := by
        rw [hb.unread, Server.unread, Server.unread, hgiven, hread]
      have hnext : Server.next? { u with board := b } = t.next? := by
        have ha := ReaderView.answers_of_quiet hb.reader (by
          rw [hview]
          exact congrArg (ofThread .reader) h.settled.queue.1)
        rw [hview] at ha
        exact congrArg List.head? ha
      have hfed : Server.Fed { u with board := b } ↔ t.Fed := by
        rw [Server.Fed, Server.Fed, hunread, hreader, htoRead]
      rw [Server.readerRank, Server.readerRank, hunread, hnext]
      exact if_congr hfed rfl (by rw [hreader])
    refine ⟨_, .head ⟨.send, trivial, trivial, hu⟩ hb.goes,
      ⟨hsettled, hwrote.trans h.hostWrote, (hb.given.trans hgiven).trans h.given⟩, ?_⟩
    rw [Server.rank, Server.rank]
    omega

/-! ### The theorem -/

/-- What is said of the host and the board. -/
structure Server.Delivers (B : Build) (W : Windows) (s : Server) : Prop where
  /-- The bytes that the board's client took and those that are there for it are the first of those
  that were written. -/
  accepted : s.taken ++ s.board.fifo.respQ <+: s.hostWrote
  /-- When no `Write` goes on, they are all. -/
  written : s.writer = .idle → s.toWrite = [] → s.taken ++ s.board.fifo.respQ = s.hostWrote
  /-- The bytes that were read, and one that a `Probe` has kept, are the first of those that the
  board's client gave. -/
  read : s.hostRead ++ s.popped <+: s.given
  /-- When the board's client takes what is there, `Write` returns and all bytes were taken, and
  `Read` returns if there are as many bytes as it asks for. -/
  goesOn : ∃ t, Relation.ReflTransGen (Goes B W) s t ∧ t.writer = .idle ∧ t.toWrite = [] ∧
    t.taken = s.hostWrote ∧ t.given = s.given ∧
      (t.reader = .idle ∧ t.toRead = 0 ∨ t.hostRead = s.given)

/-- The byte that is sent may be accepted already. -/
theorem WriterView.Sends.accepted {v : WriterView} {sent : List (BitVec 8)} {writer : Writer}
    (h : v.Sends W sent writer) : v.accepted = sent ∨ v.accepted = sent ++ writer.current := by
  cases h with
  | idle _ hsent | start _ _ hsent | counting _ _ hsent => exact .inl hsent
  | counted _ _ _ hb | posting _ _ _ _ hb | both _ _ _ _ hb => exact .inl hb.accepted
  | posted _ _ _ hd | recounting _ _ _ hd => exact hd.imp (·.accepted) (·.accepted)

theorem Server.Inv.accepted (h : s.Inv W) : s.taken ++ s.board.fifo.respQ <+: s.hostWrote := by
  obtain ⟨sent, hsends, hwrote⟩ := h.seen.writer
  change (s.board.atOnce.writerView (s.answered .writer)).accepted <+: _
  rw [← hwrote]
  rcases hsends.accepted with heq | heq <;> rw [heq]
  · rw [List.append_assoc]
    exact List.prefix_append _ _
  · exact List.prefix_append _ _

theorem Server.Inv.written (h : s.Inv W) (hidle : s.writer = .idle) (htoWrite : s.toWrite = []) :
    s.taken ++ s.board.fifo.respQ = s.hostWrote := by
  obtain ⟨sent, hsends, hwrote⟩ := h.seen.writer
  rw [hidle] at hsends hwrote
  rw [← hwrote, htoWrite, List.append_nil]
  cases hsends with
  | idle _ hsent => exact hsent.trans (List.append_nil sent).symm

theorem Server.Inv.read (h : s.Inv W) : s.hostRead ++ s.popped <+: s.given := by
  have hgiven := h.seen.reader.given
  rw [List.append_assoc] at hgiven
  exact ⟨_, hgiven⟩

theorem Writer.eq_idle_of_rank {writer : Writer} {count : BitVec 32}
    (h : writer.rank count = 0) : writer = .idle := by
  cases writer with
  | idle => rfl
  | posted byte wCount | recounting byte wCount =>
    rw [Writer.rank] at h
    split at h <;> cases h
  | start byte | counting byte | counted byte wCount => cases h

theorem Server.fed_of_rank (h : s.readerRank = 0) : s.Fed := by
  rw [Server.readerRank] at h
  split at h
  · next hfed => exact hfed
  · exact .inl ((Nat.mul_eq_zero.mp (Nat.add_eq_zero_iff.mp h).1).resolve_left (by decide))

theorem Server.Inv.goesOn (h : s.Inv W) :
    ∃ t, Relation.ReflTransGen (Goes B W) s t ∧ t.writer = .idle ∧ t.toWrite = [] ∧
      t.taken = s.hostWrote ∧ t.given = s.given ∧
        (t.reader = .idle ∧ t.toRead = 0 ∨ t.hostRead = s.given) := by
  obtain ⟨b, hb, hsettled⟩ := h.exists_settled (B := B)
  obtain ⟨t, ht, hlater, hzero⟩ :=
    (Server.progresses B W s).exists_drained ⟨hsettled, rfl, hb.given⟩
  obtain ⟨hw, hr⟩ := Nat.add_eq_zero_iff.mp hzero
  obtain ⟨hrank, hlen⟩ := Nat.add_eq_zero_iff.mp hw
  have hidle := Writer.eq_idle_of_rank hrank
  have htoWrite : t.toWrite = [] :=
    List.eq_nil_of_length_eq_zero ((Nat.mul_eq_zero.mp hlen).resolve_left (by decide))
  have hinv := hlater.settled.inv
  refine ⟨t, hb.goes.trans (ht.lift' id fun _ _ h => h), hidle, htoWrite, ?_, hlater.given, ?_⟩
  · have hwritten := hinv.written hidle htoWrite
    rw [hlater.settled.respQ, List.append_nil] at hwritten
    exact hwritten.trans hlater.hostWrote
  · rcases Server.fed_of_rank hr with hunread | hdone
    · have hread := (List.prefix_append _ _).trans hinv.read
      exact .inr ((hread.eq_of_length_le (Nat.le_of_sub_eq_zero hunread)).trans hlater.given)
    · exact .inl hdone

/-- **Delivery.** Each byte that the host writes reaches the board's client once and in order, and
each byte that the client gives reaches the host. -/
theorem server_delivers (h : (server B W).Reachable s) : s.Delivers B W :=
  let hinv := Server.Inv.of_reachable h
  ⟨hinv.accepted, hinv.written, hinv.read, hinv.goesOn⟩

/-- Windows below 4 GB, and one above. -/
def boardWindows : Windows := ⟨⟨0x1f3c0, true⟩, ⟨0x18000, false⟩⟩

instance (f : PioFifo) : (c : Call) → Decidable (c.Ready f)
  | .req _ => inferInstanceAs (Decidable (f.reqQ.length < fifoDepth))
  | .resp r => inferInstanceAs (Decidable (f.respQ.head? = some r))
  | .dispReq _ => inferInstanceAs (Decidable (f.dispReqQ.length < fifoDepth))
  | .dispResp r => inferInstanceAs (Decidable (f.dispRespQ.head? = some r))

instance (f : PioFifo) (cs : List Call) : Decidable (CallsReady f cs) :=
  decidable_of_iff ((∀ c ∈ cs, c.Ready f) ∧ (cs.map Call.method).Nodup)
    ⟨fun h => ⟨h.1, h.2⟩, fun h => ⟨h.1, h.2⟩⟩

instance (s : Server) : (a : HostAction) → Decidable (a.Ready s)
  | .cycle _ calls => inferInstanceAs (Decidable (CallsReady s.board.fifo calls))
  | .transmit | .write _ | .read _ | .probe | .send | .receive => inferInstanceAs (Decidable True)

/-- The host writes a byte. -/
def writeScript : List HostAction :=
  [.write [0x80], .send, .send] ++ List.replicate 7 (.cycle true []) ++
    [.transmit, .send, .send, .send] ++ List.replicate 6 (.cycle true []) ++
    [.transmit, .send, .cycle true [.resp 0x80]]

/-- The host writes a byte, and the board's client takes it. -/
theorem server_delivers_write :
    ∃ s, (server ⟨1, 2⟩ boardWindows).Reachable s ∧ s.hostWrote = [0x80] ∧ s.taken = [0x80] ∧
      s.writer = .idle ∧ s.Delivers ⟨1, 2⟩ boardWindows := by
  have hrun : (writeScript.foldlM
      (TransitionSystem.attempt (fun s a => HostAction.Ready s a) (Server.next ⟨1, 2⟩ boardWindows))
      (Server.start ⟨1, 2⟩ boardWindows)).map (fun s => (s.hostWrote, s.taken, s.writer)) =
      some ([0x80], [0x80], .idle) := by decide +kernel
  obtain ⟨s, hs, hval⟩ := Option.map_eq_some_iff.mp hrun
  obtain ⟨hwrote, htaken, hidle⟩ : s.hostWrote = [0x80] ∧ s.taken = [0x80] ∧ s.writer = .idle := by
    simpa only [Prod.mk.injEq] using hval
  have hinit : (server ⟨1, 2⟩ boardWindows).Reachable (Server.start ⟨1, 2⟩ boardWindows) :=
    .init rfl
  have hreach : (server ⟨1, 2⟩ boardWindows).Reachable s := by
    refine hinit.attempts ?_ hs
    intro s a t hready hnext
    exact ⟨a, hready, hnext⟩
  exact ⟨s, hreach, hwrote, htaken, hidle, server_delivers hreach⟩

end PcieXupv5

end LeapPlatforms
