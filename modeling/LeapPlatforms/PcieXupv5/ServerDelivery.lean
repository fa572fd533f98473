import LeapPlatforms.PcieXupv5.ServerViews

/-!
# Bytes between the host and the board

The invariant of both threads over the board, clock by clock. Each thread waits for one answer at
most, so the board has room for all completions.

## Main definitions

* `Server.Seen`, `Server.Inv`

## Main results

* `Server.Inv.room` — two completions at most are on the way
* `Server.Inv.next`, `Server.Inv.of_reachable` — the step lemma, and every run
-/

namespace LeapPlatforms

namespace PcieXupv5

variable {B : Build} {W : Windows}

/-! ### The invariant -/

/-- The byte that `serverSendSys` has. -/
def Writer.current : Writer → List (BitVec 8)
  | .idle => []
  | .start byte | .counting byte | .counted byte _ | .posted byte _ | .recounting byte _ => [byte]

/-- The byte that `serverTestSys` has kept. -/
def Server.popped (s : Server) : List (BitVec 8) :=
  if s.dataPopped then [s.poppedData.setWidth 8] else []

/-- The threads are where their transactions are. -/
structure Server.Seen (W : Windows) (s : Server) (a : InOrder Thread) : Prop where
  issued : ∀ t ∈ a.pending, W.Issued t
  headers : ∀ c ∈ a.completions, c.info.header ≠ .main
  answered : ∀ thread, s.answered thread ≤ (forThread thread a.completions).length
  writer : ∃ sent, (a.writerView (s.answered .writer)).Sends W sent s.writer ∧
    sent ++ s.writer.current ++ s.toWrite = s.hostWrote
  reader : (a.readerView (s.answered .reader)).Receives W s.reader (s.hostRead ++ s.popped)
  idle : s.dataPopped = true → s.reader = .idle

/-- The invariant of the host with the board. -/
structure Server.Inv (W : Windows) (s : Server) : Prop where
  board : s.board.Inv
  answered : ∀ thread, s.answered thread ≤ (forThread thread s.board.sent).length
  seen : s.Seen W s.board.atOnce

theorem InOrder.Step.arrived_prefix {a b : InOrder Thread} (h : InOrder.Step B a b) :
    a.arrived <+: b.arrived := by
  cases h with
  | arrive t => exact List.prefix_append _ _
  | perform t rest h =>
    rw [InOrder.perform]
    split <;> exact List.prefix_refl _
  | call c h => exact List.prefix_refl _

/-- What is kept by what is done and by methods is kept where nothing arrives. -/
theorem InOrder.steps_invariant {P : InOrder Thread → Prop}
    (hperform : ∀ a t rest, P a → a.pending = t :: rest →
      P { a.perform B t with pending := rest })
    (hcall : ∀ a c, P a → Call.Ready a.fifo c → P (a.call c)) {a b : InOrder Thread}
    (h : Relation.ReflTransGen (InOrder.Step B) a b) (harrived : b.arrived = a.arrived)
    (ha : P a) : P b := by
  have hgrows : ∀ {c}, Relation.ReflTransGen (InOrder.Step B) a c → a.arrived <+: c.arrived := by
    intro c hac
    induction hac with
    | refl => exact List.prefix_refl _
    | tail _ hstep ih => exact ih.trans hstep.arrived_prefix
  induction h with
  | refl => exact ha
  | tail hac hstep ih =>
    rename_i c b
    have hc : c.arrived = a.arrived :=
      (((hstep.arrived_prefix).trans (harrived ▸ List.prefix_refl _)).eq_of_length_le
        (hgrows hac).length_le)
    have hPc := ih hc
    cases hstep with
    | arrive t =>
      have hlen := congrArg List.length harrived
      rw [List.length_append, hc] at hlen
      exact absurd hlen (by simp)
    | perform t rest hp => exact hperform c t rest hPc hp
    | call d hd => exact hcall c d hPc hd

section Kept

variable {s : Server} {a : InOrder Thread}

/-- The completions of what is done. -/
theorem perform_completions {t : Transaction Thread} (ht : W.Issued t) :
    (a.perform B t).completions = a.completions ∨ ∃ c : Completion Thread,
      c.info.header ≠ .main ∧ (a.perform B t).completions = a.completions ++ [c] := by
  cases ht with
  | writeCommand offset =>
    obtain ⟨_, _, hdone⟩ := a.perform_writeCommand (B := B) (W := W) offset
    exact .inl (by rw [hdone])
  | readCount =>
    obtain ⟨_, c, hc, -, hdone⟩ := a.perform_readCount (B := B) (W := W)
    exact .inr ⟨c, fun h => Thread.noConfusion (hc.symm.trans h), by rw [hdone]⟩
  | writeSys byte =>
    rcases a.perform_writeSys (B := B) (W := W) byte with ⟨-, hdone⟩ | ⟨-, _, hdone⟩
    all_goals exact .inl (by rw [hdone])
  | readSys =>
    obtain ⟨c, hc, ⟨_, _, _, _, _, hdone⟩ | ⟨_, _, _, hdone⟩⟩ := a.perform_readSys (B := B) (W := W)
    all_goals exact .inr ⟨c, fun h => Thread.noConfusion (hc.symm.trans h), by rw [hdone]⟩

theorem forThread_length_le (thread : Thread) (cs cs' : List (Completion Thread)) :
    (forThread thread cs).length ≤ (forThread thread (cs ++ cs')).length := by
  rw [forThread, forThread, List.filter_append, List.length_append]
  exact Nat.le_add_right _ _

/-- A transaction is done. -/
theorem Server.Seen.perform (h : s.Seen W a) {t : Transaction Thread}
    {rest : List (Transaction Thread)} (hp : a.pending = t :: rest) :
    s.Seen W { a.perform B t with pending := rest } := by
  have ht : W.Issued t := h.issued t (hp ▸ List.mem_cons_self)
  have hcompletions := perform_completions (B := B) (a := a) ht
  obtain ⟨sent, hsends, hwrote⟩ := h.writer
  exact {
    issued := fun t' ht' => h.issued t' (hp ▸ List.mem_cons_of_mem t ht')
    headers := by
      rcases hcompletions with heq | ⟨c, hc, heq⟩
      · exact heq ▸ h.headers
      · intro c' hc'
        rcases List.mem_append.mp (heq ▸ hc' : c' ∈ a.completions ++ [c]) with hold | hnew
        · exact h.headers c' hold
        · exact List.mem_singleton.mp hnew ▸ hc
    answered := by
      rcases hcompletions with heq | ⟨c, -, heq⟩
      · exact heq ▸ h.answered
      · exact fun thread => heq ▸ (h.answered thread).trans (forThread_length_le thread _ _)
    writer := ⟨sent, hsends.step (writerView_perform ht hp (h.answered .writer)), hwrote⟩
    reader := h.reader.step (readerView_perform ht hp (h.answered .reader))
    idle := h.idle }

/-- A method is called. -/
theorem Server.Seen.call (h : s.Seen W a) {c : Call} (hc : c.Ready a.fifo) :
    s.Seen W (a.call c) := by
  obtain ⟨sent, hsends, hwrote⟩ := h.writer
  exact {
    issued := h.issued
    headers := h.headers
    answered := h.answered
    writer := ⟨sent, hsends.step (writerView_call hc), hwrote⟩
    reader := h.reader.step (readerView_call c)
    idle := h.idle }

theorem Server.Seen.steps (h : s.Seen W a) {b : InOrder Thread}
    (hsteps : Relation.ReflTransGen (InOrder.Step B) a b) (harrived : b.arrived = a.arrived) :
    s.Seen W b :=
  InOrder.steps_invariant (P := s.Seen W) (fun _ _ _ h hp => h.perform hp)
    (fun _ _ h hc => h.call hc) hsteps harrived h

/-- Nothing but the transactions changes when one is issued. -/
theorem ofThread_append (thread : Thread) (ts : List (Transaction Thread))
    (t : Transaction Thread) :
    ofThread thread (ts ++ [t]) =
      ofThread thread ts ++ if t.info.header = thread then [t] else [] := by
  rw [ofThread, List.filter_append, List.filter_cons, List.filter_nil]
  simp only [decide_eq_true_eq]
  rfl

/-- The next completion of a thread is its next answer. -/
theorem answers_of_getElem? {thread : Thread} {n : ℕ} {cs : List (Completion Thread)}
    {c : Completion Thread} (h : (forThread thread cs)[n]? = some c)
    (cs' : List (Completion Thread)) :
    answers thread n (cs ++ cs') = byteSwap c.data :: answers thread (n + 1) (cs ++ cs') := by
  have hget : (forThread thread (cs ++ cs'))[n]? = some c := by
    rw [forThread, List.filter_append]
    obtain ⟨hlt, -⟩ := List.getElem?_eq_some_iff.mp h
    exact (List.getElem?_append_left hlt).trans h
  obtain ⟨hlt, hc⟩ := List.getElem?_eq_some_iff.mp hget
  rw [answers, List.drop_eq_getElem_cons hlt, hc, List.map_cons]
  rfl

/-- What a thread has had of the completions it has not had yet. -/
theorem forThread_length_le_answers {thread : Thread} {n : ℕ} {cs : List (Completion Thread)}
    (h : n ≤ (forThread thread cs).length) (cs' : List (Completion Thread)) :
    (forThread thread cs').length ≤ (answers thread n (cs ++ cs')).length := by
  rw [answers, List.length_map, List.length_drop, forThread, forThread, List.filter_append,
    List.length_append]
  rw [forThread] at h
  omega

/-- The writer waits for one answer at most. -/
theorem WriterView.Sends.outstanding {v : WriterView} {sent : List (BitVec 8)} {writer : Writer}
    (h : v.Sends W sent writer) : v.pending.countP (·.info.read) + v.answers.length ≤ 1 := by
  have hquiet : v.Quiet → v.pending.countP (·.info.read) + v.answers.length ≤ 1 := by
    intro hq
    rw [hq.pending, hq.answers]
    exact Nat.zero_le 1
  have hasked : v.Asked W → v.pending.countP (·.info.read) + v.answers.length ≤ 1 := by
    rintro (⟨hp, ha⟩ | ⟨hp, ha⟩) <;> rw [hp, ha] <;> exact Nat.le_refl 1
  cases h with
  | idle hq | start _ hq | counted _ _ hq | posted _ _ hq => exact hquiet hq
  | counting _ h | recounting _ _ h => exact hasked h
  | posting _ _ hp ha => rw [hp, ha]; exact Nat.zero_le 1
  | both _ _ hp ha => rw [hp, ha]; exact Nat.le_refl 1

/-- The reader waits for one answer at most. -/
theorem ReaderView.Waits.outstanding {v : ReaderView} {reader : Reader} (h : v.Waits W reader) :
    v.pending.countP (·.info.read) + v.answers.length ≤ 1 := by
  have hquiet : v.Quiet → v.pending.countP (·.info.read) + v.answers.length ≤ 1 := by
    intro hq
    rw [hq.pending, hq.answers]
    exact Nat.zero_le 1
  have hasked : v.Asked W → v.pending.countP (·.info.read) + v.answers.length ≤ 1 := by
    rintro (⟨hp, ha⟩ | ⟨hp, data, ha⟩) <;> rw [hp, ha] <;> exact Nat.le_refl 1
  cases h with
  | idle hq | start hq => exact hquiet hq
  | receiving h | probing h => exact hasked h

/-- All reads are of the two threads. -/
theorem countP_read_le {ts : List (Transaction Thread)} (h : ∀ t ∈ ts, W.Issued t) :
    ts.countP (·.info.read) ≤ (ofThread .writer ts).countP (·.info.read) +
      (ofThread .reader ts).countP (·.info.read) := by
  induction ts with
  | nil => exact Nat.le_refl 0
  | cons t ts ih =>
    have ih := ih fun t' ht' => h t' (List.mem_cons_of_mem t ht')
    cases h t List.mem_cons_self with
    | writeCommand offset =>
      rw [ofThread_cons_of_ne (by exact Thread.noConfusion),
        ofThread_cons_of_ne (by exact Thread.noConfusion),
        List.countP_cons_of_neg (by exact Bool.false_ne_true)]
      exact ih
    | readCount =>
      rw [ofThread_cons_of_eq (by rfl), ofThread_cons_of_ne (by exact Thread.noConfusion),
        List.countP_cons_of_pos (by rfl), List.countP_cons_of_pos (by rfl)]
      omega
    | writeSys byte =>
      rw [ofThread_cons_of_eq (by rfl), ofThread_cons_of_ne (by exact Thread.noConfusion),
        List.countP_cons_of_neg (by exact Bool.false_ne_true),
        List.countP_cons_of_neg (by exact Bool.false_ne_true)]
      exact ih
    | readSys =>
      rw [ofThread_cons_of_ne (by exact Thread.noConfusion), ofThread_cons_of_eq (by rfl),
        List.countP_cons_of_pos (by rfl), List.countP_cons_of_pos (by rfl)]
      omega

/-- All completions are of the two threads. -/
theorem length_le_forThread {cs : List (Completion Thread)}
    (h : ∀ c ∈ cs, c.info.header ≠ .main) :
    cs.length ≤ (forThread .writer cs).length + (forThread .reader cs).length := by
  induction cs with
  | nil => exact Nat.le_refl 0
  | cons c cs ih =>
    have ih := ih fun c' hc' => h c' (List.mem_cons_of_mem c hc')
    have hne := h c List.mem_cons_self
    rw [forThread, forThread] at ih ⊢
    rw [List.filter_cons, List.filter_cons]
    cases hheader : c.info.header with
    | main => exact absurd hheader hne
    | writer | reader =>
      simp only [decide_true, reduceCtorEq, decide_false, if_true, Bool.false_eq_true, if_false,
        List.length_cons]
      omega

/-- **Room.** Two reads at most are on the way, so that there is room for their completions. -/
theorem Server.Inv.room (h : s.Inv W) : s.board.reads + s.board.fifoTx.length ≤ 2 := by
  obtain ⟨sent, hsends, -⟩ := h.seen.writer
  have hw := hsends.outstanding
  have hr := h.seen.reader.waits.outstanding
  have hreads := countP_read_le h.seen.issued
  have htx := length_le_forThread fun c hc => h.seen.headers c (List.mem_append_right _ hc)
  have htw := forThread_length_le_answers (h.answered .writer) s.board.fifoTx
  have htr := forThread_length_le_answers (h.answered .reader) s.board.fifoTx
  change (ofThread .writer s.board.queue).countP _ +
    (answers .writer (s.answered .writer) (s.board.sent ++ s.board.fifoTx)).length ≤ 1 at hw
  change (ofThread .reader s.board.queue).countP _ +
    (answers .reader (s.answered .reader) (s.board.sent ++ s.board.fifoTx)).length ≤ 1 at hr
  change s.board.queue.countP _ ≤ (ofThread .writer s.board.queue).countP _ +
    (ofThread .reader s.board.queue).countP _ at hreads
  rw [Bridge.reads]
  omega

/-- The board does something by itself. -/
theorem Server.Inv.act (h : s.Inv W) {b : Action Thread} (hb : Enabled s.board b)
    (harrived : (s.board.next B b).arrived = s.board.arrived)
    (hsent : ∃ cs, (s.board.next B b).sent = s.board.sent ++ cs) : (s.act B b).Inv W := by
  obtain ⟨hboard, hsteps⟩ := h.board.next (B := B) hb
  have hseen := h.seen.steps hsteps harrived
  obtain ⟨cs, hsent⟩ := hsent
  refine ⟨hboard, fun thread => ?_, ⟨hseen.issued, hseen.headers, hseen.answered, hseen.writer,
    hseen.reader, hseen.idle⟩⟩
  change s.answered thread ≤ (forThread thread (s.board.next B b).sent).length
  rw [hsent]
  exact (h.answered thread).trans (forThread_length_le thread _ cs)

theorem Server.Inv.transmit (h : s.Inv W) (htx : s.board.fifoTx ≠ []) :
    (s.act B .transmit).Inv W :=
  h.act (b := .transmit) htx rfl ⟨_, rfl⟩

theorem Server.Inv.cycle (h : s.Inv W) (rxReady : Bool) {cs : List Call}
    (hcs : CallsReady s.board.fifo cs) : (s.act B (.cycle rxReady cs)).Inv W := by
  obtain ⟨harrived, hsent, -⟩ := s.board.cycle_histories (B := B) rxReady cs
  exact h.act (b := .cycle rxReady cs) hcs harrived ⟨[], by rw [List.append_nil]; exact hsent⟩

/-- A transaction is issued: there is room for it. -/
theorem Server.Inv.arrive (h : s.Inv W) (t : Transaction Thread) :
    (s.board.next B (.arrive t)).Inv := by
  have hroom := h.room
  refine h.board.arrive fun _ => ?_
  rw [txDepth]
  omega

theorem mem_append_singleton {t : Transaction Thread} {ts : List (Transaction Thread)}
    (h : ∀ t' ∈ ts, W.Issued t') (ht : W.Issued t) : ∀ t' ∈ ts ++ [t], W.Issued t' := by
  intro t' ht'
  rcases List.mem_append.mp ht' with hold | hnew
  · exact h t' hold
  · exact List.mem_singleton.mp hnew ▸ ht

/-- The writer issues a transaction. -/
theorem Server.Inv.issue_writer (h : s.Inv W) {t : Transaction Thread} (ht : W.Issued t)
    (hheader : t.info.header = .writer) {writer : Writer}
    (hcurrent : writer.current = s.writer.current)
    (hsends : ∀ (v : WriterView) sent, v.Sends W sent s.writer →
      WriterView.Sends W { v with pending := v.pending ++ [t] } sent writer) :
    Server.Inv W { s.act B (.arrive t) with writer } := by
  obtain ⟨sent, hsent, hwrote⟩ := h.seen.writer
  refine ⟨h.arrive (B := B) t, h.answered, ⟨mem_append_singleton h.seen.issued ht, h.seen.headers,
    h.seen.answered, ⟨sent, ?_, hcurrent ▸ hwrote⟩, ?_, h.seen.idle⟩⟩
  · have := hsends _ sent hsent
    simp only [InOrder.writerView, Server.act, Bridge.next, Bridge.atOnce, ofThread_append,
      if_pos hheader] at this ⊢
    exact this
  · have := h.seen.reader
    have hne : t.info.header ≠ .reader := fun heq => Thread.noConfusion (hheader.symm.trans heq)
    simp only [InOrder.readerView, Server.act, Bridge.next, Bridge.atOnce, ofThread_append,
      if_neg hne, List.append_nil, Server.popped] at this ⊢
    exact this

/-- The reader issues a transaction. -/
theorem Server.Inv.issue_reader (h : s.Inv W) {reader : Reader}
    (hpopped : s.dataPopped = false)
    (hwaits : ∀ v : ReaderView, v.Waits W s.reader →
      ReaderView.Waits W { v with pending := v.pending ++ [W.readSys] } reader) :
    Server.Inv W { s.act B (.arrive W.readSys) with reader } := by
  obtain ⟨sent, hsent, hwrote⟩ := h.seen.writer
  refine ⟨h.arrive (B := B) _, h.answered, ⟨mem_append_singleton h.seen.issued .readSys,
    h.seen.headers, h.seen.answered, ⟨sent, ?_, hwrote⟩, ⟨?_, ?_⟩, ?_⟩⟩
  · have hne : W.readSys.info.header ≠ .writer := by exact Thread.noConfusion
    simp only [InOrder.writerView, Server.act, Bridge.next, Bridge.atOnce, ofThread_append,
      if_neg hne, List.append_nil] at hsent ⊢
    exact hsent
  · have := hwaits _ h.seen.reader.waits
    simp only [InOrder.readerView, Server.act, Bridge.next, Bridge.atOnce,
      ofThread_append] at this ⊢
    exact this
  · exact h.seen.reader.given
  · intro htrue
    exact absurd (hpopped.symm.trans htrue) Bool.false_ne_true

/-- A thread has an answer. -/
theorem Server.answers_of_answer {thread : Thread} {data : BitVec 32}
    (ha : s.answer thread = some data) :
    s.answered thread + 1 ≤ (forThread thread s.board.sent).length ∧
      answers thread (s.answered thread) s.board.atOnce.completions =
        data :: answers thread (s.answered thread + 1) s.board.atOnce.completions := by
  obtain ⟨c, hc, rfl⟩ := Option.map_eq_some_iff.mp ha
  obtain ⟨hlt, -⟩ := List.getElem?_eq_some_iff.mp hc
  exact ⟨hlt, answers_of_getElem? hc _⟩

theorem Server.Inv.answered_advance (h : s.Inv W) {thread : Thread}
    (hlt : s.answered thread + 1 ≤ (forThread thread s.board.sent).length) (thread' : Thread) :
    (s.advance thread).answered thread' ≤ (forThread thread' s.board.sent).length := by
  simp only [Server.advance]
  by_cases heq : thread' = thread
  · subst heq
    rw [Function.update_self]
    exact hlt
  · rw [Function.update_of_ne heq]
    exact h.answered thread'

/-- The writer has an answer. -/
theorem Server.Inv.advance_writer (h : s.Inv W) {data : BitVec 32}
    (ha : s.answer .writer = some data) {writer : Writer}
    (hsends : ∀ (v : WriterView) sent answers, v.Sends W sent s.writer →
      v.answers = data :: answers → ∃ sent',
        WriterView.Sends W { v with answers } sent' writer ∧
          sent' ++ writer.current = sent ++ s.writer.current) :
    Server.Inv W { s.advance .writer with writer } := by
  obtain ⟨hlt, hanswers⟩ := Server.answers_of_answer ha
  obtain ⟨sent, hsent, hwrote⟩ := h.seen.writer
  have hle := h.answered_advance hlt
  obtain ⟨sent', hsent', hcurrent⟩ := hsends _ sent _ hsent hanswers
  refine ⟨h.board, hle, ⟨h.seen.issued, h.seen.headers, fun thread =>
    (hle thread).trans (forThread_length_le thread _ _), ⟨sent', ?_, ?_⟩, ?_, h.seen.idle⟩⟩
  · simp only [Server.advance, Function.update_self]
    exact hsent'
  · change sent' ++ writer.current ++ s.toWrite = s.hostWrote
    rw [hcurrent]
    exact hwrote
  · simp only [Server.advance, Function.update_of_ne (show Thread.reader ≠ .writer by decide)]
    exact h.seen.reader

/-- The reader waits for one answer. -/
theorem ReaderView.Waits.of_answers {v : ReaderView} {reader : Reader} (h : v.Waits W reader)
    {data : BitVec 32} {answers : List (BitVec 32)} (ha : v.answers = data :: answers) :
    v.pending = [] ∧ answers = [] := by
  have hasked : v.Asked W → v.pending = [] ∧ answers = [] := by
    rintro (⟨-, hnil⟩ | ⟨hp, data', hdata⟩)
    · rw [hnil] at ha
      cases ha
    · exact ⟨hp, (List.cons.inj (ha.symm.trans hdata)).2⟩
  cases h with
  | idle hq | start hq =>
    rw [hq.answers] at ha
    cases ha
  | receiving h | probing h => exact hasked h

/-- The reader has an answer, and keeps the byte if there is one. -/
theorem Server.Inv.advance_reader (h : s.Inv W) {data : BitVec 32}
    (ha : s.answer .reader = some data) (hpopped : s.dataPopped = false) :
    Server.Inv W { s.advance .reader with
      poppedData := data, dataPopped := decide (data ≠ noData), reader := .idle } := by
  obtain ⟨hlt, hanswers⟩ := Server.answers_of_answer ha
  obtain ⟨sent, hsent, hwrote⟩ := h.seen.writer
  have hle := h.answered_advance hlt
  obtain ⟨hpending, hnil⟩ := h.seen.reader.waits.of_answers hanswers
  have hgiven := h.seen.reader.given
  rw [Server.popped, hpopped, if_neg Bool.false_ne_true, List.append_nil] at hgiven
  refine ⟨h.board, hle, ⟨h.seen.issued, h.seen.headers, fun thread =>
    (hle thread).trans (forThread_length_le thread _ _), ⟨sent, ?_, hwrote⟩, ⟨.idle ?_, ?_⟩,
    fun _ => rfl⟩⟩
  · simp only [Server.advance, Function.update_of_ne (show Thread.writer ≠ .reader by decide)]
    exact hsent
  · refine ⟨hpending, ?_⟩
    simp only [InOrder.readerView, Server.advance, Function.update_self]
    exact hnil
  · simp only [InOrder.readerView, ReaderView.bytes, hanswers, hnil] at hgiven
    simp only [InOrder.readerView, Server.advance, Function.update_self, ReaderView.bytes, hnil,
      Server.popped]
    rw [← hgiven]
    by_cases hdata : data = noData <;> simp [hdata, Bridge.atOnce]

/-- The reader returns the byte that it has kept. -/
theorem Server.Inv.finish (h : s.Inv W) (hpopped : s.dataPopped = true) : s.finish.Inv W := by
  obtain ⟨sent, hsent, hwrote⟩ := h.seen.writer
  have hreader := h.seen.reader
  rw [h.seen.idle hpopped, Server.popped, if_pos hpopped] at hreader
  refine ⟨h.board, h.answered, ⟨h.seen.issued, h.seen.headers, h.seen.answered,
    ⟨sent, hsent, hwrote⟩, ⟨hreader.waits, ?_⟩, fun _ => rfl⟩⟩
  have hgiven := hreader.given
  rw [Server.finish, Server.popped, if_neg Bool.false_ne_true, List.append_nil]
  exact hgiven

/-- The reader asks again. -/
theorem Server.Inv.again (h : s.Inv W) (hidle : s.reader = .idle) (hpopped : s.dataPopped = false) :
    Server.Inv W { s with reader := .start } := by
  obtain ⟨sent, hsent, hwrote⟩ := h.seen.writer
  refine ⟨h.board, h.answered, ⟨h.seen.issued, h.seen.headers, h.seen.answered,
    ⟨sent, hsent, hwrote⟩, ⟨?_, h.seen.reader.given⟩, ?_⟩⟩
  · have hwaits := h.seen.reader.waits
    rw [hidle] at hwaits
    cases hwaits with
    | idle hq => exact .start hq
  · intro htrue
    exact absurd (hpopped.symm.trans htrue) Bool.false_ne_true

/-- `serverSendSys` goes on. -/
theorem Server.Inv.send (h : s.Inv W) {t : Server} (hsend : s.send B W = some t) : t.Inv W := by
  rw [Server.send] at hsend
  split at hsend
  · next hwriter =>
    split at hsend
    · cases hsend
    · next byte rest hrest =>
      obtain rfl := Option.some.inj hsend
      obtain ⟨sent, hsent, hwrote⟩ := h.seen.writer
      rw [hwriter] at hsent hwrote
      refine ⟨h.board, h.answered, ⟨h.seen.issued, h.seen.headers, h.seen.answered, ⟨sent, ?_, ?_⟩,
        h.seen.reader, h.seen.idle⟩⟩
      · cases hsent with
        | idle hq hsent => exact .start byte hq hsent
      · rw [← hwrote, hrest]
        simp [Writer.current]
  · next byte hwriter =>
    obtain rfl := Option.some.inj hsend
    refine h.issue_writer .readCount rfl (by rw [hwriter]; rfl) fun v sent hv => ?_
    rw [hwriter] at hv
    cases hv with
    | start _ hq hsent =>
      exact .counting byte (.inl ⟨congrArg (· ++ [W.readCount]) hq.pending, hq.answers⟩) hsent
  · next byte hwriter =>
    obtain ⟨wCount, ha, rfl⟩ := Option.map_eq_some_iff.mp hsend
    refine h.advance_writer ha fun v sent answers hv hanswers => ?_
    rw [hwriter] at hv ⊢
    refine ⟨sent, ?_, rfl⟩
    cases hv with
    | counting _ hasked hsent =>
      obtain ⟨hp, hcount, rfl⟩ := hasked.of_answers hanswers
      exact .counted byte wCount ⟨hp, rfl⟩ ⟨hsent, hcount⟩
  · next byte wCount hwriter =>
    obtain rfl := Option.some.inj hsend
    refine h.issue_writer (.writeSys byte) rfl (by rw [hwriter]; rfl) fun v sent hv => ?_
    rw [hwriter] at hv
    cases hv with
    | counted _ _ hq hb =>
      exact .posting byte wCount (congrArg (· ++ [W.writeSys byte]) hq.pending) hq.answers
        ⟨hb.accepted, hb.count⟩
  · next byte wCount hwriter =>
    obtain rfl := Option.some.inj hsend
    refine h.issue_writer .readCount rfl (by rw [hwriter]; rfl) fun v sent hv => ?_
    rw [hwriter] at hv
    cases hv with
    | posting _ _ hp ha hb =>
      exact .both byte wCount (congrArg (· ++ [W.readCount]) hp) ha ⟨hb.accepted, hb.count⟩
    | posted _ _ hq hd =>
      exact .recounting byte wCount
        (.inl ⟨congrArg (· ++ [W.readCount]) hq.pending, hq.answers⟩)
        (hd.imp (fun hb => ⟨hb.accepted, hb.count⟩) fun hb => ⟨hb.accepted, hb.count⟩)
  · next byte wCount hwriter =>
    obtain ⟨newWCount, ha, rfl⟩ := Option.map_eq_some_iff.mp hsend
    refine h.advance_writer ha fun v sent answers hv hanswers => ?_
    rw [hwriter] at hv ⊢
    cases hv with
    | both _ _ _ hnil =>
      rw [hnil] at hanswers
      cases hanswers
    | recounting _ _ hasked hd =>
      obtain ⟨hp, hcount, rfl⟩ := hasked.of_answers hanswers
      rcases hd with hb | hb
      · rw [if_pos (hcount.symm.trans hb.count)]
        exact ⟨sent, .start byte ⟨hp, rfl⟩ hb.accepted, rfl⟩
      · rw [if_neg (by rw [← hcount, hb.count]; simp)]
        exact ⟨sent ++ [byte], .idle ⟨hp, rfl⟩ hb.accepted, List.append_nil _⟩

/-- A thread that waits for no answer has kept none, when it is not idle. -/
theorem Server.Inv.not_popped (h : s.Inv W) (hreader : s.reader ≠ .idle) : s.dataPopped = false :=
  Bool.eq_false_iff.mpr fun htrue => hreader (h.seen.idle htrue)

/-- `serverRecvSys` and `serverTestSys` go on. -/
theorem Server.Inv.receive (h : s.Inv W) {t : Server} (hreceive : s.receive B W = some t) :
    t.Inv W := by
  rw [Server.receive] at hreceive
  split at hreceive
  · next hreader =>
    split at hreceive
    · cases hreceive
    · split at hreceive
      · next hpopped =>
        obtain rfl := Option.some.inj hreceive
        exact h.finish hpopped
      · next hpopped =>
        obtain rfl := Option.some.inj hreceive
        exact h.again hreader (Bool.eq_false_iff.mpr hpopped)
  · next hreader =>
    obtain rfl := Option.some.inj hreceive
    have hpopped := h.not_popped (by rw [hreader]; exact Reader.noConfusion)
    refine h.issue_reader hpopped fun v hv => ?_
    rw [hreader] at hv
    cases hv with
    | start hq => exact .receiving (.inl ⟨congrArg (· ++ [W.readSys]) hq.pending, hq.answers⟩)
  · next hreader =>
    obtain ⟨data, ha, rfl⟩ := Option.map_eq_some_iff.mp hreceive
    have hpopped := h.not_popped (by rw [hreader]; exact Reader.noConfusion)
    have hinv := h.advance_reader ha hpopped
    by_cases hdata : data = noData
    · have hnone : decide (data ≠ noData) = s.dataPopped := by
        rw [hpopped, hdata]
        exact decide_eq_false fun hne => hne rfl
      rw [hnone] at hinv
      rw [if_pos hdata]
      exact hinv.again rfl hpopped
    · rw [if_neg hdata]
      exact hinv.finish (decide_eq_true hdata)
  · next hreader =>
    obtain ⟨data, ha, rfl⟩ := Option.map_eq_some_iff.mp hreceive
    exact h.advance_reader ha (h.not_popped (by rw [hreader]; exact Reader.noConfusion))

/-- A `Write` begins. -/
theorem Server.Inv.write (h : s.Inv W) (buf : List (BitVec 8)) (htoWrite : s.toWrite = []) :
    Server.Inv W { s with toWrite := buf, hostWrote := s.hostWrote ++ buf } := by
  obtain ⟨sent, hsent, hwrote⟩ := h.seen.writer
  refine ⟨h.board, h.answered, ⟨h.seen.issued, h.seen.headers, h.seen.answered, ⟨sent, hsent, ?_⟩,
    h.seen.reader, h.seen.idle⟩⟩
  rw [htoWrite, List.append_nil] at hwrote
  rw [hwrote]

/-- A `Probe` begins. -/
theorem Server.Inv.probe (h : s.Inv W) (hidle : s.reader = .idle) (hpopped : s.dataPopped = false) :
    Server.Inv W { s.act B (.arrive W.readSys) with reader := .probing } := by
  refine h.issue_reader hpopped fun v hv => ?_
  rw [hidle] at hv
  cases hv with
  | idle hq => exact .probing (.inl ⟨congrArg (· ++ [W.readSys]) hq.pending, hq.answers⟩)

/-- **The step lemma.** -/
theorem Server.Inv.next (h : s.Inv W) {b : HostAction} (hready : b.Ready s) {t : Server}
    (hnext : s.next B W b = some t) : t.Inv W := by
  cases b with
  | transmit =>
    obtain ⟨htx, ht⟩ := Option.ite_none_right_eq_some.mp hnext
    exact Option.some.inj ht ▸ h.transmit htx
  | cycle rxReady calls => exact Option.some.inj hnext ▸ h.cycle rxReady hready
  | write buf =>
    obtain ⟨⟨-, htoWrite⟩, ht⟩ := Option.ite_none_right_eq_some.mp hnext
    exact Option.some.inj ht ▸ h.write buf htoWrite
  | read bytesRequested =>
    obtain ⟨-, ht⟩ := Option.ite_none_right_eq_some.mp hnext
    obtain rfl := Option.some.inj ht
    exact ⟨h.board, h.answered, ⟨h.seen.issued, h.seen.headers, h.seen.answered, h.seen.writer,
      h.seen.reader, h.seen.idle⟩⟩
  | probe =>
    obtain ⟨⟨hidle, -⟩, ht⟩ := Option.ite_none_right_eq_some.mp hnext
    obtain rfl := Option.some.inj ht
    split
    · exact h
    · next hpopped => exact h.probe hidle (Bool.eq_false_iff.mpr hpopped)
  | send => exact h.send hnext
  | receive => exact h.receive hnext

/-- The board when the host has started. -/
theorem Server.Inv.start (B : Build) (W : Windows) : (Server.start B W).Inv W := by
  have hwrite : ∀ {b : Bridge Thread} (offset : BitVec 15), b.Inv →
      (b.next B (.arrive (W.writeCommand offset))).Inv := fun offset hb =>
    hb.arrive fun hread => Bool.noConfusion hread
  refine ⟨hwrite _ (hwrite _ .init), fun _ => Nat.zero_le _, ⟨?_, fun c hc => ?_,
    fun _ => Nat.zero_le _, ⟨[], .idle ⟨rfl, rfl⟩ rfl, rfl⟩, ⟨.idle ⟨rfl, rfl⟩, rfl⟩, fun _ => rfl⟩⟩
  · exact mem_append_singleton (mem_append_singleton (fun _ h => absurd h List.not_mem_nil)
      (.writeCommand 0x200)) (.writeCommand 0x204)
  · exact absurd hc List.not_mem_nil

theorem Server.Inv.of_reachable (h : (server B W).Reachable s) : s.Inv W :=
  h.invariant (by rintro _ rfl; exact .start B W) fun _ _ hinv ⟨_, hready, hnext⟩ =>
    hinv.next hready hnext

end Kept

end PcieXupv5

end LeapPlatforms
