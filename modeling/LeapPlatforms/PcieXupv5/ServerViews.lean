import LeapPlatforms.PcieXupv5.Server

/-!
# What the threads of the host see

Of all that goes on at the board a thread sees its own transactions. To the writer the board is a
queue that may refuse a byte and that counts those that it accepts; to the reader it is a queue that
may be empty. Here is what each thread has on the way at each point of its code, and that whatever
the board and the other thread do keeps it so.

## Main definitions

* `WriterView`, `ReaderView`, and their steps
* `WriterView.Sends`, `ReaderView.Receives` — what is on the way, wherever a thread is

## Main results

* `writerView_perform`, `readerView_perform` — the steps of the board are steps of the views
* `WriterView.Sends.step`, `ReaderView.Receives.step`
-/

namespace LeapPlatforms

namespace PcieXupv5

variable {B : Build} {W : Windows}

/-! ### What a thread sees -/

/-- What the host issues. -/
inductive Windows.Issued (W : Windows) : Transaction Thread → Prop
  | writeCommand (offset : BitVec 15) : Issued W (W.writeCommand offset)
  | readCount : Issued W W.readCount
  | writeSys (byte : BitVec 8) : Issued W (W.writeSys byte)
  | readSys : Issued W W.readSys

/-- A byte that the board's client took. -/
def Call.taken : Call → Option (BitVec 8)
  | .resp r => some r
  | _ => none

/-- A byte that the board's client gave. -/
def Call.given : Call → Option (BitVec 8)
  | .req r => some r
  | _ => none

/-- What the writer sees: its transactions, the bytes that the board's client took, those that are
there for it, and how often one was accepted. -/
structure WriterView where
  pending : List (Transaction Thread)
  answers : List (BitVec 32)
  taken : List (BitVec 8)
  respQ : List (BitVec 8)
  count : BitVec 32

/-- The bytes that were accepted. -/
def WriterView.accepted (v : WriterView) : List (BitVec 8) := v.taken ++ v.respQ

/-- What the reader sees: its transactions, the bytes that were given, and those that are still
there. -/
structure ReaderView where
  pending : List (Transaction Thread)
  answers : List (BitVec 32)
  given : List (BitVec 8)
  reqQ : List (BitVec 8)

/-- The transactions of a thread. -/
def ofThread (thread : Thread) (ts : List (Transaction Thread)) : List (Transaction Thread) :=
  ts.filter (·.info.header = thread)

/-- The completions for a thread. -/
def forThread (thread : Thread) (cs : List (Completion Thread)) : List (Completion Thread) :=
  cs.filter (·.info.header = thread)

/-- What a thread that has had `n` completions gets. -/
def answers (thread : Thread) (n : ℕ) (cs : List (Completion Thread)) : List (BitVec 32) :=
  ((forThread thread cs).drop n).map fun c => byteSwap c.data

/-- What the writer sees when it has had `n` completions. -/
def InOrder.writerView (a : InOrder Thread) (n : ℕ) : WriterView where
  pending := ofThread .writer a.pending
  answers := answers .writer n a.completions
  taken := a.calls.filterMap Call.taken
  respQ := a.fifo.respQ
  count := a.fifo.bar2WPacketCount

/-- What the reader sees when it has had `n` completions. -/
def InOrder.readerView (a : InOrder Thread) (n : ℕ) : ReaderView where
  pending := ofThread .reader a.pending
  answers := answers .reader n a.completions
  given := a.calls.filterMap Call.given
  reqQ := a.fifo.reqQ

/-- What the board does, as the writer sees it. -/
inductive WriterView.Step (W : Windows) (v : WriterView) : WriterView → Prop
  | none : Step W v v
  | count (rest : List (Transaction Thread)) (h : v.pending = W.readCount :: rest) :
    Step W v { v with pending := rest, answers := v.answers ++ [v.count] }
  | accept (byte : BitVec 8) (rest : List (Transaction Thread))
    (h : v.pending = W.writeSys byte :: rest) (hroom : v.respQ.length < fifoDepth) :
    Step W v { v with pending := rest, respQ := v.respQ ++ [byte], count := v.count + 1 }
  | refuse (byte : BitVec 8) (rest : List (Transaction Thread))
    (h : v.pending = W.writeSys byte :: rest) (hroom : ¬ v.respQ.length < fifoDepth) :
    Step W v { v with pending := rest }
  | take (byte : BitVec 8) (bytes : List (BitVec 8)) (h : v.respQ = byte :: bytes) :
    Step W v { v with taken := v.taken ++ [byte], respQ := bytes }

/-- What the board does, as the reader sees it. -/
inductive ReaderView.Step (W : Windows) (v : ReaderView) : ReaderView → Prop
  | none : Step W v v
  | byte (byte : BitVec 8) (bytes : List (BitVec 8)) (rest : List (Transaction Thread))
    (h : v.pending = W.readSys :: rest) (hbytes : v.reqQ = byte :: bytes) :
    Step W v
      { v with pending := rest, answers := v.answers ++ [byte.setWidth 32], reqQ := bytes }
  | noData (rest : List (Transaction Thread)) (h : v.pending = W.readSys :: rest)
    (hbytes : v.reqQ = []) :
    Step W v { v with pending := rest, answers := v.answers ++ [noData] }
  | give (byte : BitVec 8) :
    Step W v { v with given := v.given ++ [byte], reqQ := v.reqQ ++ [byte] }

theorem ofThread_cons_of_ne {t : Transaction Thread} {thread : Thread}
    (hne : t.info.header ≠ thread) (ts : List (Transaction Thread)) :
    ofThread thread (t :: ts) = ofThread thread ts :=
  List.filter_cons_of_neg (by simpa using hne)

theorem ofThread_cons_of_eq {t : Transaction Thread} {thread : Thread}
    (heq : t.info.header = thread) (ts : List (Transaction Thread)) :
    ofThread thread (t :: ts) = t :: ofThread thread ts :=
  List.filter_cons_of_pos (by simpa using heq)

theorem forThread_append (thread : Thread) (cs : List (Completion Thread))
    (c : Completion Thread) :
    forThread thread (cs ++ [c]) =
      forThread thread cs ++ if c.info.header = thread then [c] else [] := by
  rw [forThread, List.filter_append, List.filter_cons, List.filter_nil]
  simp only [decide_eq_true_eq]
  rfl

/-- A completion for another thread. -/
theorem answers_append_of_ne {c : Completion Thread} {thread : Thread}
    (hne : c.info.header ≠ thread) (n : ℕ) (cs : List (Completion Thread)) :
    answers thread n (cs ++ [c]) = answers thread n cs := by
  rw [answers, forThread_append, if_neg hne, List.append_nil]
  rfl

/-- A completion for the thread. -/
theorem answers_append_of_eq {c : Completion Thread} {thread : Thread}
    (heq : c.info.header = thread) {n : ℕ} {cs : List (Completion Thread)}
    (hn : n ≤ (forThread thread cs).length) :
    answers thread n (cs ++ [c]) = answers thread n cs ++ [byteSwap c.data] := by
  rw [answers, forThread_append, if_pos heq, List.drop_append_of_le_length hn, List.map_append]
  rfl

section Views

variable {a : InOrder Thread} {t : Transaction Thread} {rest : List (Transaction Thread)} {n : ℕ}

/-- What is done, as the writer sees it. -/
theorem writerView_perform (ht : W.Issued t) (h : a.pending = t :: rest)
    (hn : n ≤ (forThread .writer a.completions).length) :
    (a.writerView n).Step W (InOrder.writerView { a.perform B t with pending := rest } n) := by
  have hother : t.info.header ≠ .writer → ofThread .writer a.pending = ofThread .writer rest :=
    fun hne => h ▸ ofThread_cons_of_ne hne rest
  have hown : t.info.header = .writer → ofThread .writer a.pending = t :: ofThread .writer rest :=
    fun heq => h ▸ ofThread_cons_of_eq heq rest
  cases ht with
  | writeCommand offset =>
    obtain ⟨_, _, hdone⟩ := a.perform_writeCommand (B := B) (W := W) offset
    simp only [hdone, InOrder.writerView, ← hother (by exact Thread.noConfusion)]
    exact .none
  | readCount =>
    obtain ⟨_, c, hc, hdata, hdone⟩ := a.perform_readCount (B := B) (W := W)
    simp only [hdone, InOrder.writerView, answers_append_of_eq hc hn, hdata]
    exact .count _ (hown rfl)
  | writeSys byte =>
    rcases a.perform_writeSys (B := B) (W := W) byte with ⟨hroom, hdone⟩ | ⟨hroom, _, hdone⟩
    · simp only [hdone, InOrder.writerView]
      exact .accept byte _ (hown rfl) hroom
    · simp only [hdone, InOrder.writerView]
      exact .refuse byte _ (hown rfl) hroom
  | readSys =>
    obtain ⟨c, hc, hread⟩ := a.perform_readSys (B := B) (W := W)
    have hne : c.info.header ≠ .writer := fun heq => Thread.noConfusion (hc.symm.trans heq)
    rcases hread with ⟨_, _, _, _, _, hdone⟩ | ⟨_, _, _, hdone⟩
    all_goals
      simp only [hdone, InOrder.writerView, answers_append_of_ne hne,
        ← hother (by exact Thread.noConfusion)]
      exact .none

/-- What is done, as the reader sees it. -/
theorem readerView_perform (ht : W.Issued t) (h : a.pending = t :: rest)
    (hn : n ≤ (forThread .reader a.completions).length) :
    (a.readerView n).Step W (InOrder.readerView { a.perform B t with pending := rest } n) := by
  have hother : t.info.header ≠ .reader → ofThread .reader a.pending = ofThread .reader rest :=
    fun hne => h ▸ ofThread_cons_of_ne hne rest
  have hown : t.info.header = .reader → ofThread .reader a.pending = t :: ofThread .reader rest :=
    fun heq => h ▸ ofThread_cons_of_eq heq rest
  cases ht with
  | writeCommand offset =>
    obtain ⟨_, _, hdone⟩ := a.perform_writeCommand (B := B) (W := W) offset
    simp only [hdone, InOrder.readerView, ← hother (by exact Thread.noConfusion)]
    exact .none
  | readCount =>
    obtain ⟨_, c, hc, -, hdone⟩ := a.perform_readCount (B := B) (W := W)
    have hne : c.info.header ≠ .reader := fun heq => Thread.noConfusion (hc.symm.trans heq)
    simp only [hdone, InOrder.readerView, answers_append_of_ne hne,
      ← hother (by exact Thread.noConfusion)]
    exact .none
  | writeSys byte =>
    rcases a.perform_writeSys (B := B) (W := W) byte with ⟨-, hdone⟩ | ⟨-, _, hdone⟩
    all_goals
      simp only [hdone, InOrder.readerView, ← hother (by exact Thread.noConfusion)]
      exact .none
  | readSys =>
    obtain ⟨c, hc, ⟨byte, bytes, _, hbytes, hdata, hdone⟩ | ⟨_, hbytes, hdata, hdone⟩⟩ :=
      a.perform_readSys (B := B) (W := W)
    · simp only [hdone, InOrder.readerView, answers_append_of_eq hc hn, hdata]
      exact .byte byte bytes _ (hown rfl) hbytes
    · simp only [hdone, InOrder.readerView, answers_append_of_eq hc hn, hdata]
      exact .noData _ (hown rfl) hbytes

/-- A method, as the writer sees it. -/
theorem writerView_call {c : Call} (hc : c.Ready a.fifo) :
    (a.writerView n).Step W ((a.call c).writerView n) := by
  have htaken : (a.calls ++ [c]).filterMap Call.taken =
      a.calls.filterMap Call.taken ++ c.taken.toList := by
    cases c <;> simp [Call.taken]
  simp only [InOrder.writerView, InOrder.call, htaken]
  cases c with
  | resp r =>
    obtain ⟨bytes, hbytes⟩ := List.head?_eq_some_iff.mp hc
    simp only [PioFifo.call, hbytes]
    exact .take r bytes rfl
  | req r | dispReq r | dispResp r =>
    simp only [Call.taken, Option.toList_none, List.append_nil]
    exact .none

/-- A method, as the reader sees it. -/
theorem readerView_call (c : Call) :
    (a.readerView n).Step W ((a.call c).readerView n) := by
  have hgiven : (a.calls ++ [c]).filterMap Call.given =
      a.calls.filterMap Call.given ++ c.given.toList := by
    cases c <;> simp [Call.given]
  simp only [InOrder.readerView, InOrder.call, hgiven]
  cases c with
  | req r => exact .give r
  | resp r | dispReq r | dispResp r =>
    simp only [Call.given, Option.toList_none, List.append_nil]
    exact .none

end Views

/-! ### What the threads rely on -/

/-- The answers of a thread are as many as it waits for. -/
def WriterView.Asked (W : Windows) (v : WriterView) : Prop :=
  v.pending = [W.readCount] ∧ v.answers = [] ∨ v.pending = [] ∧ v.answers = [v.count]

/-- The answer of a thread that waits for one is the count. -/
theorem WriterView.Asked.of_answers {v : WriterView} (h : v.Asked W) {wCount : BitVec 32}
    {answers : List (BitVec 32)} (ha : v.answers = wCount :: answers) :
    v.pending = [] ∧ v.count = wCount ∧ answers = [] := by
  rcases h with ⟨-, hnil⟩ | ⟨hp, hcount⟩
  · rw [hnil] at ha
    cases ha
  · obtain ⟨heq, rfl⟩ := List.cons.inj (ha.symm.trans hcount)
    exact ⟨hp, heq.symm, rfl⟩

/-- Nothing of the writer is on the way. -/
structure WriterView.Quiet (v : WriterView) : Prop where
  pending : v.pending = []
  answers : v.answers = []

/-- A byte was not accepted yet. -/
structure WriterView.Before (v : WriterView) (sent : List (BitVec 8)) (wCount : BitVec 32) : Prop
    where
  accepted : v.accepted = sent
  count : v.count = wCount

/-- A byte was accepted and counted. -/
structure WriterView.After (v : WriterView) (sent : List (BitVec 8)) (byte : BitVec 8)
    (wCount : BitVec 32) : Prop where
  accepted : v.accepted = sent ++ [byte]
  count : v.count = wCount + 1

/-- Where the writer's transactions are, when it has sent some bytes. -/
inductive WriterView.Sends (W : Windows) (v : WriterView) (sent : List (BitVec 8)) : Writer → Prop
  | idle (hq : v.Quiet) (hsent : v.accepted = sent) : Sends W v sent .idle
  | start (byte : BitVec 8) (hq : v.Quiet) (hsent : v.accepted = sent) :
    Sends W v sent (.start byte)
  | counting (byte : BitVec 8) (hasked : v.Asked W) (hsent : v.accepted = sent) :
    Sends W v sent (.counting byte)
  | counted (byte : BitVec 8) (wCount : BitVec 32) (hq : v.Quiet) (hb : v.Before sent wCount) :
    Sends W v sent (.counted byte wCount)
  | posting (byte : BitVec 8) (wCount : BitVec 32) (hp : v.pending = [W.writeSys byte])
    (ha : v.answers = []) (hb : v.Before sent wCount) : Sends W v sent (.posted byte wCount)
  | posted (byte : BitVec 8) (wCount : BitVec 32) (hq : v.Quiet)
    (hd : v.Before sent wCount ∨ v.After sent byte wCount) : Sends W v sent (.posted byte wCount)
  | both (byte : BitVec 8) (wCount : BitVec 32) (hp : v.pending = [W.writeSys byte, W.readCount])
    (ha : v.answers = []) (hb : v.Before sent wCount) : Sends W v sent (.recounting byte wCount)
  | recounting (byte : BitVec 8) (wCount : BitVec 32) (hasked : v.Asked W)
    (hd : v.Before sent wCount ∨ v.After sent byte wCount) :
    Sends W v sent (.recounting byte wCount)

theorem readCount_ne_writeSys (W : Windows) (byte : BitVec 8) : W.readCount ≠ W.writeSys byte :=
  fun h => Bool.noConfusion (congrArg (·.info.read) h)

theorem writeSys_inj {byte byte' : BitVec 8} (h : W.writeSys byte = W.writeSys byte') :
    byte = byte' := by
  have hdata := congrArg (fun t => ((byteSwap t.data).setWidth 64).setWidth 8) h
  simpa only [Windows.writeSys, Window.access, byteSwap_byteSwap, setWidth_signExtend] using hdata

section Protocol

variable {v v' : WriterView} {sent : List (BitVec 8)} {wCount : BitVec 32}

/-- What the board does without a transaction of the writer, as it sees it. -/
theorem WriterView.Step.of_quiet (h : v.Step W v') (hp : v.pending = []) :
    v'.pending = v.pending ∧ v'.answers = v.answers ∧ v'.accepted = v.accepted ∧
      v'.count = v.count := by
  cases h with
  | none => exact ⟨rfl, rfl, rfl, rfl⟩
  | count rest h => rw [hp] at h; cases h
  | accept byte rest h => rw [hp] at h; cases h
  | refuse byte rest h => rw [hp] at h; cases h
  | take byte bytes h =>
    refine ⟨rfl, rfl, ?_, rfl⟩
    rw [WriterView.accepted, WriterView.accepted, h, List.append_assoc]
    rfl

/-- The count is read. -/
theorem WriterView.Step.of_asked (h : v.Step W v') (hasked : v.Asked W) :
    v'.Asked W ∧ v'.accepted = v.accepted ∧ v'.count = v.count := by
  rcases hasked with ⟨hp, ha⟩ | ⟨hp, ha⟩
  · cases h with
    | none => exact ⟨.inl ⟨hp, ha⟩, rfl, rfl⟩
    | count rest h =>
      obtain rfl : [] = rest := (List.cons.inj (hp.symm.trans h)).2
      exact ⟨.inr ⟨rfl, congrArg (· ++ [v.count]) ha⟩, rfl, rfl⟩
    | accept byte rest h =>
      exact absurd (List.cons.inj (hp.symm.trans h)).1 (readCount_ne_writeSys W byte)
    | refuse byte rest h =>
      exact absurd (List.cons.inj (hp.symm.trans h)).1 (readCount_ne_writeSys W byte)
    | take byte bytes h =>
      refine ⟨.inl ⟨hp, ha⟩, ?_, rfl⟩
      rw [WriterView.accepted, WriterView.accepted, h, List.append_assoc]
      rfl
  · obtain ⟨hp', ha', hacc, hcount⟩ := h.of_quiet hp
    exact ⟨.inr ⟨hp'.trans hp, by rw [ha', ha, hcount]⟩, hacc, hcount⟩

/-- A byte is written. -/
theorem WriterView.Step.of_write {byte : BitVec 8} {rest : List (Transaction Thread)}
    (h : v.Step W v') (hp : v.pending = W.writeSys byte :: rest) (hb : v.Before sent wCount) :
    v'.answers = v.answers ∧
      (v'.pending = v.pending ∧ v'.Before sent wCount ∧ v'.respQ.length ≤ v.respQ.length ∨
        v'.pending = rest ∧ (v'.After sent byte wCount ∨
          ¬ v.respQ.length < fifoDepth ∧ v'.Before sent wCount)) := by
  cases h with
  | none => exact ⟨rfl, .inl ⟨rfl, hb, Nat.le_refl _⟩⟩
  | count rest' h =>
    exact absurd (List.cons.inj (hp.symm.trans h)).1.symm (readCount_ne_writeSys W byte)
  | accept byte' rest' h hroom =>
    obtain ⟨hbyte, rfl⟩ := List.cons.inj (hp.symm.trans h)
    obtain rfl := writeSys_inj hbyte
    refine ⟨rfl, .inr ⟨rfl, .inl ⟨?_, congrArg (· + 1) hb.count⟩⟩⟩
    rw [← hb.accepted, WriterView.accepted, WriterView.accepted, List.append_assoc]
  | refuse byte' rest' h hroom =>
    obtain ⟨-, rfl⟩ := List.cons.inj (hp.symm.trans h)
    exact ⟨rfl, .inr ⟨rfl, .inr ⟨hroom, ⟨hb.accepted, hb.count⟩⟩⟩⟩
  | take byte' bytes h =>
    refine ⟨rfl, .inl ⟨rfl, ⟨?_, hb.count⟩, by simp [h]⟩⟩
    rw [← hb.accepted, WriterView.accepted, WriterView.accepted, h, List.append_assoc]
    rfl

/-- **What the board does** is what the writer expects. -/
theorem WriterView.Sends.step {writer : Writer} (h : v.Sends W sent writer) (hstep : v.Step W v') :
    v'.Sends W sent writer := by
  have hquiet : v.Quiet → v'.Quiet ∧ v'.accepted = v.accepted ∧ v'.count = v.count := by
    intro hq
    obtain ⟨hp, ha, hacc, hcount⟩ := hstep.of_quiet hq.pending
    exact ⟨⟨hp.trans hq.pending, ha.trans hq.answers⟩, hacc, hcount⟩
  have hkept : v'.accepted = v.accepted → v'.count = v.count → ∀ {byte wCount},
      v.Before sent wCount ∨ v.After sent byte wCount →
      v'.Before sent wCount ∨ v'.After sent byte wCount := by
    intro hacc hcount byte wCount hd
    exact hd.imp (fun hb => ⟨hacc.trans hb.accepted, hcount.trans hb.count⟩)
      fun hb => ⟨hacc.trans hb.accepted, hcount.trans hb.count⟩
  cases h with
  | idle hq hsent =>
    obtain ⟨hq', hacc, -⟩ := hquiet hq
    exact .idle hq' (hacc.trans hsent)
  | start byte hq hsent =>
    obtain ⟨hq', hacc, -⟩ := hquiet hq
    exact .start byte hq' (hacc.trans hsent)
  | counting byte hasked hsent =>
    obtain ⟨hasked', hacc, -⟩ := hstep.of_asked hasked
    exact .counting byte hasked' (hacc.trans hsent)
  | counted byte wCount hq hb =>
    obtain ⟨hq', hacc, hcount⟩ := hquiet hq
    exact .counted byte wCount hq' ⟨hacc.trans hb.accepted, hcount.trans hb.count⟩
  | posting byte wCount hp ha hb =>
    obtain ⟨ha', ⟨hp', hb', -⟩ | ⟨hp', hd⟩⟩ := hstep.of_write hp hb
    · exact .posting byte wCount (hp'.trans hp) (ha'.trans ha) hb'
    · exact .posted byte wCount ⟨hp', ha'.trans ha⟩ (hd.symm.imp And.right id)
  | posted byte wCount hq hd =>
    obtain ⟨hq', hacc, hcount⟩ := hquiet hq
    exact .posted byte wCount hq' (hkept hacc hcount hd)
  | both byte wCount hp ha hb =>
    obtain ⟨ha', ⟨hp', hb', -⟩ | ⟨hp', hd⟩⟩ := hstep.of_write hp hb
    · exact .both byte wCount (hp'.trans hp) (ha'.trans ha) hb'
    · exact .recounting byte wCount (.inl ⟨hp', ha'.trans ha⟩) (hd.symm.imp And.right id)
  | recounting byte wCount hasked hd =>
    obtain ⟨hasked', hacc, hcount⟩ := hstep.of_asked hasked
    exact .recounting byte wCount hasked' (hkept hacc hcount hd)

end Protocol

/-! ### The reader -/

/-- The bytes among the answers. -/
def ReaderView.bytes (v : ReaderView) : List (BitVec 8) :=
  (v.answers.filter (· ≠ noData)).map (·.setWidth 8)

/-- The reader waits for an answer. -/
def ReaderView.Asked (W : Windows) (v : ReaderView) : Prop :=
  v.pending = [W.readSys] ∧ v.answers = [] ∨ v.pending = [] ∧ ∃ data, v.answers = [data]

/-- Nothing of the reader is on the way. -/
structure ReaderView.Quiet (v : ReaderView) : Prop where
  pending : v.pending = []
  answers : v.answers = []

/-- Where the reader's transactions are. -/
inductive ReaderView.Waits (W : Windows) (v : ReaderView) : Reader → Prop
  | idle (hq : v.Quiet) : Waits W v .idle
  | start (hq : v.Quiet) : Waits W v .start
  | receiving (hasked : v.Asked W) : Waits W v .receiving
  | probing (hasked : v.Asked W) : Waits W v .probing

/-- What was read, what was popped, and what is on the way is what was given. -/
structure ReaderView.Receives (W : Windows) (v : ReaderView) (reader : Reader)
    (got : List (BitVec 8)) : Prop where
  waits : v.Waits W reader
  given : got ++ v.bytes ++ v.reqQ = v.given

theorem setWidth_ne_noData (byte : BitVec 8) : byte.setWidth 32 ≠ noData := by
  intro h
  have hlt := byte.isLt
  have hnat := congrArg BitVec.toNat h
  rw [BitVec.toNat_setWidth, noData] at hnat
  simp at hnat
  omega

section Protocol

variable {v v' : ReaderView}

theorem ReaderView.Step.of_quiet (h : v.Step W v') (hp : v.pending = []) :
    v'.pending = v.pending ∧ v'.answers = v.answers := by
  cases h with
  | none | give byte => exact ⟨rfl, rfl⟩
  | byte byte bytes rest h => rw [hp] at h; cases h
  | noData rest h => rw [hp] at h; cases h

/-- A read is answered. -/
theorem ReaderView.Step.of_asked (h : v.Step W v') (hasked : v.Asked W) : v'.Asked W := by
  rcases hasked with ⟨hp, ha⟩ | ⟨hp, data, ha⟩
  · cases h with
    | none | give byte => exact .inl ⟨hp, ha⟩
    | byte byte bytes rest h =>
      obtain rfl : [] = rest := (List.cons.inj (hp.symm.trans h)).2
      exact .inr ⟨rfl, byte.setWidth 32, congrArg (· ++ [byte.setWidth 32]) ha⟩
    | noData rest h =>
      obtain rfl : [] = rest := (List.cons.inj (hp.symm.trans h)).2
      exact .inr ⟨rfl, PcieXupv5.noData, congrArg (· ++ [PcieXupv5.noData]) ha⟩
  · obtain ⟨hp', ha'⟩ := h.of_quiet hp
    exact .inr ⟨hp'.trans hp, data, ha'.trans ha⟩

/-- **What the board does** is what the reader expects. -/
theorem ReaderView.Receives.step {reader : Reader} {got : List (BitVec 8)}
    (h : v.Receives W reader got) (hstep : v.Step W v') : v'.Receives W reader got := by
  have hquiet : v.Quiet → v'.Quiet := by
    intro hq
    obtain ⟨hp, ha⟩ := hstep.of_quiet hq.pending
    exact ⟨hp.trans hq.pending, ha.trans hq.answers⟩
  constructor
  · cases h.waits with
    | idle hq => exact .idle (hquiet hq)
    | start hq => exact .start (hquiet hq)
    | receiving hasked => exact .receiving (hstep.of_asked hasked)
    | probing hasked => exact .probing (hstep.of_asked hasked)
  · have hgiven := h.given
    cases hstep with
    | none => exact hgiven
    | byte byte bytes rest _ hbytes =>
      simpa [ReaderView.bytes, setWidth_ne_noData, hbytes] using hgiven
    | noData rest _ _ => simpa [ReaderView.bytes] using hgiven
    | give byte =>
      change got ++ v.bytes ++ (v.reqQ ++ [byte]) = v.given ++ [byte]
      rw [← hgiven, List.append_assoc _ v.reqQ]

end Protocol

end PcieXupv5

end LeapPlatforms
