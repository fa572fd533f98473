import Mathlib.Algebra.Order.Ring.Nat
import Mathlib.Data.Nat.Find
import Mathlib.Tactic.Common

/-!
# The SERDES of the USRP link

Both lanes send runs of commas at fixed intervals, and data or idle words in between. A receiver
gets the bytes of a lane, cut into words at an even or an odd byte, and uses the commas to find out
which: a word with one comma in it says that the cut is odd, a word of two that it is even. In a run
of more than one word of commas an odd cut gives both.

## Main definitions

* `SerdesWord`, `packTxWord`, `unpackRxWord`
* `Sender`, `Sender.next` — the counter and the two queues
* `Receiver`, `Receiver.next` — one lane
* `line`, `cut` — the bytes on a lane, and the words of a receiver
* `sender`, `slot`, `receiver` — the runs

## Main results

* `runEnd_exists` — there is always another run of commas
* `Cut.step` — what a word says to an odd receiver
* `alignment_recovery`
-/

namespace LeapPlatforms

namespace SataUsrp

/-! ### Words -/

/-- `XUPV5_SERDES_BYTE`. -/
structure SerdesByte where
  isK : Bool
  data : BitVec 8
  deriving DecidableEq

def serdesControl (ctrlVal : BitVec 8) : SerdesByte := ⟨true, ctrlVal⟩

def serdesData (dataVal : BitVec 8) : SerdesByte := ⟨false, dataVal⟩

/-- `XUPV5_SERDES_WORD`. -/
structure SerdesWord where
  msb : SerdesByte
  lsb : SerdesByte
  deriving DecidableEq

/-- `txcharisk` and `txdata`. -/
def packTxWord (txWord : SerdesWord) : BitVec 2 × BitVec 16 :=
  (BitVec.ofBool txWord.msb.isK ++ BitVec.ofBool txWord.lsb.isK,
    txWord.msb.data ++ txWord.lsb.data)

/-- Errors and the comma are not looked at. -/
def unpackRxWord (_isError isK : BitVec 2) (rxData : BitVec 16) (_comma : SerdesByte) :
    SerdesWord :=
  let rx0 : SerdesByte := ⟨isK[0], rxData.extractLsb' 0 8⟩
  let rx1 : SerdesByte := ⟨isK[1], rxData.extractLsb' 8 8⟩
  ⟨rx1, rx0⟩

def comma : SerdesByte := serdesControl 60

def commas : SerdesWord := ⟨comma, comma⟩

def idles : SerdesWord := ⟨serdesControl 28, serdesControl 28⟩

/-- No byte of the word is a comma. -/
def SerdesWord.Clean (w : SerdesWord) : Prop := w.msb ≠ comma ∧ w.lsb ≠ comma

instance (w : SerdesWord) : Decidable w.Clean := inferInstanceAs (Decidable (_ ∧ _))

theorem unpackRxWord_packTxWord (e : BitVec 2) (w : SerdesWord) :
    unpackRxWord e (packTxWord w).1 (packTxWord w).2 comma = w := by
  obtain ⟨⟨mk, md⟩, ⟨lk, ld⟩⟩ := w
  have hlow : (md ++ ld).extractLsb' 0 8 = ld := BitVec.extractLsb'_append_eq_right
  have hhigh : (md ++ ld).extractLsb' 8 8 = md := BitVec.extractLsb'_append_eq_left
  have hkey : (BitVec.ofBool mk ++ BitVec.ofBool lk)[0] = lk ∧
      (BitVec.ofBool mk ++ BitVec.ofBool lk)[1] = mk := by
    cases mk <;> cases lk <;> decide
  rw [unpackRxWord, packTxWord]
  simp only [hlow, hhigh, hkey.1, hkey.2]

/-! ### The device -/

/-- The two lanes. -/
inductive Lane
  | lane0
  | lane1
  deriving DecidableEq

/-- How many words there are between two runs of commas, and in a run; both fit the counter. -/
structure CommaCfg where
  commaPeriod : ℕ
  commaLength : ℕ
  period_pos : 0 < commaPeriod
  period_lt : commaPeriod < 2 ^ 16
  length_pos : 0 < commaLength
  length_lt : commaLength < 2 ^ 16

/-- The sending side. -/
structure Sender where
  sendComma : Bool
  commaCntDown : BitVec 16
  sendData0 : List SerdesWord
  sendData1 : List SerdesWord

/-- The words that the user offers in a clock. -/
structure SenderIn where
  send0 : Option SerdesWord
  send1 : Option SerdesWord

/-- They have no commas. -/
def SenderIn.Clean (i : SenderIn) : Prop :=
  (∀ w, i.send0 = some w → w.Clean) ∧ ∀ w, i.send1 = some w → w.Clean

namespace Sender

variable (cfg : CommaCfg) (s : Sender)

/-- After a reset. -/
def reset : Sender where
  sendComma := true
  commaCntDown := BitVec.ofNat 16 cfg.commaLength
  sendData0 := []
  sendData1 := []

def updateCounter : Bool × BitVec 16 :=
  if 1 < s.commaCntDown then (s.sendComma, s.commaCntDown - 1)
  else
    (!s.sendComma,
      if s.sendComma then BitVec.ofNat 16 cfg.commaPeriod else BitVec.ofNat 16 cfg.commaLength)

/-- What a lane sends in a clock. -/
inductive Slot
  | comma
  | idle
  | data (w : SerdesWord)

def Slot.word : Slot → SerdesWord
  | .comma => commas
  | .idle => idles
  | .data w => w

/-- A word of the user. -/
def Slot.given : Slot → Option SerdesWord
  | .data w => some w
  | _ => none

/-- The word that the receiver is to deliver. -/
def Slot.payload : Slot → Option SerdesWord
  | .comma => none
  | .idle => some idles
  | .data w => some w

/-- Either rule, with its queue. -/
def xferSendData (sendData : List SerdesWord) : Slot × List SerdesWord :=
  match sendData with
  | w :: rest =>
    if s.sendComma then (.comma, w :: rest) else (.data w, rest)
  | [] => if s.sendComma then (.comma, []) else (.idle, [])

def xferSendData0 : Slot × List SerdesWord := s.xferSendData s.sendData0

def xferSendData1 : Slot × List SerdesWord := s.xferSendData s.sendData1

/-- The rule of a lane. -/
def xfer : Lane → Slot × List SerdesWord
  | .lane0 => s.xferSendData0
  | .lane1 => s.xferSendData1

/-- The words that a queue of ten takes. -/
def accepts (sendData : List SerdesWord) (w : Option SerdesWord) : List SerdesWord :=
  if sendData.length < 10 then w.toList else []

def accepted (i : SenderIn) : Lane → List SerdesWord
  | .lane0 => accepts s.sendData0 i.send0
  | .lane1 => accepts s.sendData1 i.send1

def sendData : Lane → List SerdesWord
  | .lane0 => s.sendData0
  | .lane1 => s.sendData1

/-- A clock of `txusrclk`. -/
def next (i : SenderIn) : Sender where
  sendComma := (s.updateCounter cfg).1
  commaCntDown := (s.updateCounter cfg).2
  sendData0 := s.xferSendData0.2 ++ s.accepted i .lane0
  sendData1 := s.xferSendData1.2 ++ s.accepted i .lane1

end Sender

/-- The outputs of the transceiver. -/
structure UgOut where
  rxdisperr0 : BitVec 2
  rxcharisk0 : BitVec 2
  rxdata0 : BitVec 16
  rxdisperr1 : BitVec 2
  rxcharisk1 : BitVec 2
  rxdata1 : BitVec 16

/-- The receiving side of a lane. `enqueued` is what was put into `recvData` since the reset. -/
structure Receiver where
  oddAligned : Bool := false
  realignment : BitVec 32 := 0
  errors : BitVec 32 := 0
  lastRx : SerdesWord := commas
  recvData : List SerdesWord := []
  enqueued : List SerdesWord := []

namespace Receiver

variable (s : Receiver)

/-- The word that may be enqueued. -/
def candidate (rxWord : SerdesWord) : SerdesWord :=
  if s.oddAligned then ⟨rxWord.lsb, s.lastRx.msb⟩ else rxWord

/-- The words that are. -/
def enq (rxWord : SerdesWord) : List SerdesWord :=
  if (s.candidate rxWord).msb ≠ comma ∧ (s.candidate rxWord).lsb ≠ comma then
    [s.candidate rxWord]
  else []

/-- One of the bytes is a comma. -/
def oneComma (rxWord : SerdesWord) : Bool :=
  decide (rxWord.lsb ≠ comma) ^^ decide (rxWord.msb ≠ comma)

def twoCommas (rxWord : SerdesWord) : Bool := decide (rxWord.lsb = comma ∧ rxWord.msb = comma)

def noError (rxdisperr : BitVec 2) : Bool := rxdisperr[0] = false ∧ rxdisperr[1] = false

/-- Either rule, with the outputs of its lane; a queue of ten that is full blocks it. -/
def xferRecvData (rxdisperr rxcharisk : BitVec 2) (rxdata : BitVec 16) : Receiver :=
  let rxWord := unpackRxWord rxdisperr rxcharisk rxdata comma
  if s.enq rxWord ≠ [] ∧ ¬ s.recvData.length < 10 then s
  else
    { lastRx := rxWord
      errors := s.errors + (BitVec.ofBool rxdisperr[0]).setWidth 32 +
        (BitVec.ofBool rxdisperr[1]).setWidth 32
      recvData := s.recvData ++ s.enq rxWord
      enqueued := s.enqueued ++ s.enq rxWord
      oddAligned :=
        if oneComma rxWord && noError rxdisperr then true
        else if twoCommas rxWord && noError rxdisperr then false
        else s.oddAligned
      realignment :=
        if oneComma rxWord && noError rxdisperr then
          if s.oddAligned then s.realignment else s.realignment + 1
        else if twoCommas rxWord && noError rxdisperr then
          if s.oddAligned then s.realignment + 1 else s.realignment
        else s.realignment }

def xferRecvData0 (u : UgOut) : Receiver := s.xferRecvData u.rxdisperr0 u.rxcharisk0 u.rxdata0

def xferRecvData1 (u : UgOut) : Receiver := s.xferRecvData u.rxdisperr1 u.rxcharisk1 u.rxdata1

/-- The rule of a lane. -/
def xfer (u : UgOut) : Lane → Receiver
  | .lane0 => s.xferRecvData0 u
  | .lane1 => s.xferRecvData1 u

/-- A clock of the lane, in which the user may take a word. -/
def next (l : Lane) (u : UgOut) (receive : Bool) : Receiver :=
  { s.xfer u l with
    recvData :=
      if receive ∧ s.recvData ≠ [] then (s.xfer u l).recvData.tail else (s.xfer u l).recvData }

end Receiver

/-! ### Runs -/

section Runs

variable (cfg : CommaCfg) (ins : ℕ → SenderIn) (l : Lane)

/-- The sending side, clock by clock. -/
def sender : ℕ → Sender
  | 0 => .reset cfg
  | n + 1 => (sender n).next cfg (ins n)

/-- What a lane sends. -/
def slot (n : ℕ) : Sender.Slot := ((sender cfg ins n).xfer l).1

/-- The words of the user that a lane took before a clock. -/
def taken : ℕ → List SerdesWord
  | 0 => []
  | n + 1 => taken n ++ (sender cfg ins n).accepted (ins n) l

/-- `txcharisk` and `txdata`. -/
def txWires (n : ℕ) : BitVec 2 × BitVec 16 := packTxWord (slot cfg ins l n).word

/-- A byte of the wires. -/
def lowByte (w : BitVec 2 × BitVec 16) : SerdesByte := ⟨w.1[0], w.2.extractLsb' 0 8⟩

def highByte (w : BitVec 2 × BitVec 16) : SerdesByte := ⟨w.1[1], w.2.extractLsb' 8 8⟩

/-- The bytes on a lane, the low byte of a word first. -/
def line (n : ℕ) : SerdesByte :=
  if n % 2 = 0 then lowByte (txWires cfg ins l (n / 2)) else highByte (txWires cfg ins l (n / 2))

/-- The words of a receiver that starts at a byte of the lane. -/
def cut (offset n : ℕ) : SerdesWord :=
  ⟨line cfg ins l (offset + 2 * n + 1), line cfg ins l (offset + 2 * n)⟩

/-- The outputs of the transceiver that carries the cut words of both lanes, without errors. -/
def ugOut (offset : Lane → ℕ) (n : ℕ) : UgOut where
  rxdisperr0 := 0
  rxcharisk0 := (packTxWord (cut cfg ins .lane0 (offset .lane0) n)).1
  rxdata0 := (packTxWord (cut cfg ins .lane0 (offset .lane0) n)).2
  rxdisperr1 := 0
  rxcharisk1 := (packTxWord (cut cfg ins .lane1 (offset .lane1) n)).1
  rxdata1 := (packTxWord (cut cfg ins .lane1 (offset .lane1) n)).2

/-- The receiver of a lane, clock by clock. -/
def receiver (offset : Lane → ℕ) (receive : ℕ → Bool) : ℕ → Receiver
  | 0 => {}
  | n + 1 => (receiver offset receive n).next l (ugOut cfg ins offset n) (receive n)

/-- A run of commas ends with this word. -/
def RunEnd (n : ℕ) : Prop := slot cfg ins l n = .comma ∧ slot cfg ins l (n + 1) ≠ .comma

end Runs

/-! ### The sending side -/

namespace Sender

variable {cfg : CommaCfg} {s : Sender} {i : SenderIn} {l : Lane}

/-- The words that wait have no commas. -/
def CleanQueues (s : Sender) : Prop := ∀ l, ∀ w ∈ s.sendData l, w.Clean

/-- A word of commas, or one without. -/
def Slot.Sent (x : Slot) : Prop := x = .comma ∨ x.word.Clean

theorem xferSendData_comma (q : List SerdesWord) :
    (s.xferSendData q).1 = .comma ↔ s.sendComma = true := by
  cases q <;> cases hc : s.sendComma <;> simp [xferSendData, hc]

/-- A word of the user comes from the queue. -/
theorem xferSendData_given (q : List SerdesWord) :
    (s.xferSendData q).1.given.toList ++ (s.xferSendData q).2 = q := by
  cases q <;> cases hc : s.sendComma <;> simp [xferSendData, hc, Slot.given]

theorem xfer_eq (l : Lane) : s.xfer l = s.xferSendData (s.sendData l) := by
  cases l <;> rfl

theorem next_sendData (l : Lane) :
    (s.next cfg i).sendData l = (s.xfer l).2 ++ s.accepted i l := by
  cases l <;> rfl

theorem clean_of_accepted (hi : i.Clean) {w : SerdesWord} (hw : w ∈ s.accepted i l) : w.Clean := by
  have haccepts : ∀ (q : List SerdesWord) (o : Option SerdesWord),
      w ∈ accepts q o → o = some w := by
    intro q o hw
    rw [accepts] at hw
    split at hw
    · simpa using hw
    · cases hw
  cases l with
  | lane0 => exact hi.1 w (haccepts _ _ hw)
  | lane1 => exact hi.2 w (haccepts _ _ hw)

theorem CleanQueues.next (h : s.CleanQueues) (hi : i.Clean) : (s.next cfg i).CleanQueues := by
  intro l w hw
  rw [next_sendData, List.mem_append] at hw
  rcases hw with hw | hw
  · refine h l w ?_
    rw [← xferSendData_given (s := s) (s.sendData l), ← xfer_eq, List.mem_append]
    exact Or.inr hw
  · exact clean_of_accepted hi hw

theorem CleanQueues.sent (h : s.CleanQueues) (l : Lane) : (s.xfer l).1.Sent := by
  have hgiven := xferSendData_given (s := s) (s.sendData l)
  rw [← xfer_eq] at hgiven
  cases hx : (s.xfer l).1 with
  | comma => exact Or.inl rfl
  | idle => exact Or.inr (by decide)
  | data w =>
    refine Or.inr (h l w ?_)
    rw [← hgiven, hx]
    exact List.mem_cons_self

end Sender

section Sending

variable {cfg : CommaCfg} {ins : ℕ → SenderIn} {l : Lane}

theorem slot_sent (hins : ∀ n, (ins n).Clean) (n : ℕ) : (slot cfg ins l n).Sent := by
  suffices hclean : (sender cfg ins n).CleanQueues from hclean.sent l
  induction n with
  | zero =>
    intro l w hw
    cases l <;> cases hw
  | succ n ih => exact ih.next (hins n)

theorem slot_eq_comma (n : ℕ) :
    slot cfg ins l n = .comma ↔ (sender cfg ins n).sendComma = true := by
  rw [slot, Sender.xfer_eq]
  exact Sender.xferSendData_comma _

theorem filterMap_range_succ {α : Type} (f : ℕ → Option α) (n : ℕ) :
    (List.range (n + 1)).filterMap f = (List.range n).filterMap f ++ (f n).toList := by
  rw [List.range_succ, List.filterMap_append]
  cases hf : f n <;> simp [hf]

/-- The words of the user go out in their order. -/
theorem given_taken (n : ℕ) :
    (List.range n).filterMap (fun k => (slot cfg ins l k).given) ++ (sender cfg ins n).sendData l =
      taken cfg ins l n := by
  induction n with
  | zero => cases l <;> rfl
  | succ n ih =>
    have hgiven := Sender.xferSendData_given (s := sender cfg ins n) ((sender cfg ins n).sendData l)
    rw [← Sender.xfer_eq] at hgiven
    rw [taken, ← ih, filterMap_range_succ, sender, Sender.next_sendData, List.append_assoc,
      ← List.append_assoc (slot cfg ins l n).given.toList]
    show _ ++ (((Sender.xfer _ l).1.given.toList ++ _) ++ _) = _
    rw [hgiven, List.append_assoc]

/-- Commas and words take turns. -/
theorem sendComma_toggles (cfg : CommaCfg) (ins : ℕ → SenderIn) (n : ℕ) : ∃ m, n ≤ m ∧
    (sender cfg ins m).sendComma = (sender cfg ins n).sendComma ∧
      (sender cfg ins (m + 1)).sendComma = !(sender cfg ins n).sendComma := by
  induction hk : (sender cfg ins n).commaCntDown.toNat using Nat.strong_induction_on
    generalizing n with
  | _ k ih =>
    by_cases hmore : 1 < (sender cfg ins n).commaCntDown
    · have hnext : (sender cfg ins (n + 1)).sendComma = (sender cfg ins n).sendComma ∧
          (sender cfg ins (n + 1)).commaCntDown = (sender cfg ins n).commaCntDown - 1 := by
        rw [sender, Sender.next, Sender.updateCounter, if_pos hmore]
        exact ⟨rfl, rfl⟩
      have hless : (sender cfg ins (n + 1)).commaCntDown.toNat < k := by
        rw [hnext.2, ← hk]
        bv_omega
      obtain ⟨m, hm, hsame, hother⟩ := ih _ hless (n + 1) rfl
      rw [hnext.1] at hsame hother
      exact ⟨m, by omega, hsame, hother⟩
    · refine ⟨n, Nat.le_refl n, rfl, ?_⟩
      rw [sender, Sender.next, Sender.updateCounter, if_neg hmore]

theorem runEnd_iff (n : ℕ) : RunEnd cfg ins l n ↔
    (sender cfg ins n).sendComma = true ∧ (sender cfg ins (n + 1)).sendComma = false := by
  rw [RunEnd, slot_eq_comma, Ne, slot_eq_comma, Bool.not_eq_true]

theorem runEnd_exists (n : ℕ) : ∃ m, n ≤ m ∧ RunEnd cfg ins l m := by
  obtain ⟨m, hm, hsame, hother⟩ := sendComma_toggles cfg ins n
  cases hc : (sender cfg ins n).sendComma with
  | true =>
    rw [hc] at hsame hother
    exact ⟨m, hm, (runEnd_iff m).mpr ⟨hsame, hother⟩⟩
  | false =>
    obtain ⟨k, hk, hsame', hother'⟩ := sendComma_toggles cfg ins (m + 1)
    rw [hother, hc] at hsame' hother'
    exact ⟨k, by omega, (runEnd_iff k).mpr ⟨hsame', hother'⟩⟩

end Sending

/-! ### The receiving side -/

namespace Receiver

open Sender

variable {s : Receiver} {x y z : Slot}

/-- What the commas of a word say. -/
def aligned (s : Receiver) (rxWord : SerdesWord) : Bool :=
  if oneComma rxWord then true else if twoCommas rxWord then false else s.oddAligned

/-- A word without errors, when the queue has room. -/
theorem xferRecvData_packTxWord (w : SerdesWord) (hroom : s.recvData.length < 10) :
    (s.xferRecvData 0 (packTxWord w).1 (packTxWord w).2).enqueued = s.enqueued ++ s.enq w ∧
      (s.xferRecvData 0 (packTxWord w).1 (packTxWord w).2).lastRx = w ∧
      (s.xferRecvData 0 (packTxWord w).1 (packTxWord w).2).oddAligned = s.aligned w := by
  have hfree : ¬ (s.enq w ≠ [] ∧ ¬ s.recvData.length < 10) := fun h => h.2 hroom
  have hclear : noError 0 = true := by decide
  rw [xferRecvData]
  simp only [unpackRxWord_packTxWord, if_neg hfree, hclear, Bool.and_true, aligned, and_self]

theorem Slot.Sent.lsb (h : x.Sent) : x.word.lsb = comma ↔ x = .comma := by
  constructor
  · intro hlsb
    rcases h with h | h
    · exact h
    · exact absurd hlsb h.2
  · rintro rfl
    rfl

theorem Slot.Sent.msb (h : x.Sent) : x.word.msb = comma ↔ x = .comma := by
  constructor
  · intro hmsb
    rcases h with h | h
    · exact h
    · exact absurd hmsb h.1
  · rintro rfl
    rfl

/-- A word that is put together rightly is enqueued, if it is not a comma. -/
theorem enq_of_candidate (hx : x.Sent) {w : SerdesWord} (hw : s.candidate w = x.word) :
    s.enq w = x.payload.toList := by
  rw [enq, hw]
  by_cases hcomma : x = .comma
  · subst hcomma
    exact if_neg fun h => h.1 rfl
  · have hclean : x.word.msb ≠ comma ∧ x.word.lsb ≠ comma :=
      ⟨fun h => hcomma (Slot.Sent.msb hx |>.mp h), fun h => hcomma (Slot.Sent.lsb hx |>.mp h)⟩
    rw [if_pos hclean]
    cases x with
    | comma => exact absurd rfl hcomma
    | idle => rfl
    | data w => rfl

/-- An even cut gives words of commas, or without one. -/
theorem aligned_even (hx : x.Sent) (h : s.oddAligned = false ∨ x = .comma) :
    s.aligned x.word = false := by
  by_cases hcomma : x = .comma
  · subst hcomma
    rfl
  · have hodd := h.resolve_right hcomma
    have hlsb : x.word.lsb ≠ comma := fun h => hcomma (Slot.Sent.lsb hx |>.mp h)
    have hmsb : x.word.msb ≠ comma := fun h => hcomma (Slot.Sent.msb hx |>.mp h)
    simp [aligned, oneComma, twoCommas, hlsb, hmsb, hodd]

/-- The word of an odd cut through two slots. -/
def straddle (x y : Slot) : SerdesWord := ⟨y.word.lsb, x.word.msb⟩

/-- A receiver with an odd cut has seen the end of one slot and the start of the next; it takes the
cut for an even one as long as both are commas. -/
structure Cut (s : Receiver) (x y : Slot) : Prop where
  last : s.lastRx = straddle x y
  odd : s.oddAligned = true ↔ ¬ (x = .comma ∧ y = .comma)

/-- The flag behind a word. -/
theorem aligned_straddle (hx : x.Sent) (hy : y.Sent)
    (h : x ≠ .comma → y ≠ .comma → s.oddAligned = true) :
    s.aligned (straddle x y) = true ↔ ¬ (x = .comma ∧ y = .comma) := by
  have hlsb : (straddle x y).lsb = comma ↔ x = .comma := Slot.Sent.msb hx
  have hmsb : (straddle x y).msb = comma ↔ y = .comma := Slot.Sent.lsb hy
  generalize straddle x y = w at hlsb hmsb ⊢
  by_cases hxc : x = .comma <;> by_cases hyc : y = .comma <;>
    simp [aligned, oneComma, twoCommas, hlsb, hmsb, hxc, hyc, h]

/-- **A clock of an odd receiver** delivers the slot of which it now has both bytes. -/
theorem Cut.step (h : s.Cut x y) (hy : y.Sent) (hz : z.Sent) :
    s.enq (straddle y z) = y.payload.toList ∧
      (s.aligned (straddle y z) = true ↔ ¬ (y = .comma ∧ z = .comma)) := by
  refine ⟨?_, aligned_straddle hy hz fun hyc _ => h.odd.mpr fun hboth => hyc hboth.2⟩
  by_cases hodd : s.oddAligned = true
  · refine enq_of_candidate hy ?_
    rw [candidate, if_pos hodd, h.last]
    rfl
  · -- the flag was cleared by two commas, so the slot is one
    have hboth := not_not.mp fun hne => hodd (h.odd.mpr hne)
    obtain rfl := hboth.2
    rw [enq, candidate, if_neg hodd]
    exact if_neg fun hclean => hclean.2 rfl

end Receiver

section Receiving

open Receiver

variable {cfg : CommaCfg} {ins : ℕ → SenderIn} {l : Lane} {offset : Lane → ℕ} {receive : ℕ → Bool}

theorem line_even (k : ℕ) : line cfg ins l (2 * k) = (slot cfg ins l k).word.lsb := by
  rw [line, if_pos (by omega), Nat.mul_div_cancel_left k (by decide), txWires]
  exact congrArg SerdesWord.lsb (unpackRxWord_packTxWord 0 _)

theorem line_odd (k : ℕ) : line cfg ins l (2 * k + 1) = (slot cfg ins l k).word.msb := by
  have hdiv : (2 * k + 1) / 2 = k := by omega
  rw [line, if_neg (by omega), hdiv, txWires]
  exact congrArg SerdesWord.msb (unpackRxWord_packTxWord 0 _)

theorem cut_even (k n : ℕ) : cut cfg ins l (2 * k) n = (slot cfg ins l (k + n)).word := by
  rw [cut, ← Nat.mul_add, line_odd, line_even]

theorem cut_odd (k n : ℕ) : cut cfg ins l (2 * k + 1) n =
    straddle (slot cfg ins l (k + n)) (slot cfg ins l (k + n + 1)) := by
  have hlow : 2 * k + 1 + 2 * n = 2 * (k + n) + 1 := by omega
  have hhigh : 2 * (k + n) + 1 + 1 = 2 * (k + n + 1) := by omega
  rw [cut, hlow, hhigh, line_odd, line_even, straddle]

/-- A clock of a receiver with room. -/
theorem receiver_succ (n : ℕ) (hroom : (receiver cfg ins l offset receive n).recvData.length < 10) :
    (receiver cfg ins l offset receive (n + 1)).enqueued =
        (receiver cfg ins l offset receive n).enqueued ++
          (receiver cfg ins l offset receive n).enq (cut cfg ins l (offset l) n) ∧
      (receiver cfg ins l offset receive (n + 1)).lastRx = cut cfg ins l (offset l) n ∧
      (receiver cfg ins l offset receive (n + 1)).oddAligned =
        (receiver cfg ins l offset receive n).aligned (cut cfg ins l (offset l) n) := by
  have hstep := xferRecvData_packTxWord (cut cfg ins l (offset l) n) hroom
  cases l <;> exact hstep

/-- Behind a run of commas an even receiver delivers the slots. -/
theorem recovers_even (hins : ∀ n, (ins n).Clean)
    (hroom : ∀ n, (receiver cfg ins l offset receive n).recvData.length < 10) {k r : ℕ}
    (hoffset : offset l = 2 * k) (hr : RunEnd cfg ins l r) (hk : k ≤ r) (m : ℕ) :
    (receiver cfg ins l offset receive (r + 1 - k + m)).enqueued =
        (receiver cfg ins l offset receive (r + 1 - k)).enqueued ++
          (List.range m).filterMap (fun n => (slot cfg ins l (r + 1 + n)).payload) ∧
      (receiver cfg ins l offset receive (r + 1 - k + m)).oddAligned = false := by
  induction m with
  | zero =>
    have hindex : r + 1 - k = r - k + 1 := by omega
    obtain ⟨-, -, hodd⟩ := receiver_succ (r - k) (hroom (r - k))
    rw [hoffset, cut_even, show k + (r - k) = r by omega] at hodd
    refine ⟨by simp, ?_⟩
    rw [Nat.add_zero, hindex, hodd]
    exact aligned_even (slot_sent hins r) (.inr hr.1)
  | succ m ih =>
    obtain ⟨henq, hodd⟩ := ih
    obtain ⟨hnext, -, hodd'⟩ := receiver_succ (r + 1 - k + m) (hroom (r + 1 - k + m))
    have hsent : (slot cfg ins l (r + 1 + m)).Sent := slot_sent hins _
    rw [hoffset, cut_even, show k + (r + 1 - k + m) = r + 1 + m by omega] at hnext hodd'
    refine ⟨?_, ?_⟩
    · have hcandidate : (receiver cfg ins l offset receive (r + 1 - k + m)).candidate
          (slot cfg ins l (r + 1 + m)).word = (slot cfg ins l (r + 1 + m)).word := by
        rw [candidate, hodd]
        rfl
      rw [← Nat.add_assoc, hnext, henq, filterMap_range_succ, enq_of_candidate hsent hcandidate,
        List.append_assoc]
    · rw [← Nat.add_assoc, hodd']
      exact aligned_even hsent (.inl hodd)

/-- And so does an odd one, a byte behind. -/
theorem recovers_odd (hins : ∀ n, (ins n).Clean)
    (hroom : ∀ n, (receiver cfg ins l offset receive n).recvData.length < 10) {k r : ℕ}
    (hoffset : offset l = 2 * k + 1) (hr : RunEnd cfg ins l r) (hk : k ≤ r) (m : ℕ) :
    (receiver cfg ins l offset receive (r + 1 - k + m)).enqueued =
        (receiver cfg ins l offset receive (r + 1 - k)).enqueued ++
          (List.range m).filterMap (fun n => (slot cfg ins l (r + 1 + n)).payload) ∧
      (receiver cfg ins l offset receive (r + 1 - k + m)).Cut (slot cfg ins l (r + m))
        (slot cfg ins l (r + m + 1)) := by
  induction m with
  | zero =>
    have hindex : r + 1 - k = r - k + 1 := by omega
    obtain ⟨-, hlast, hodd⟩ := receiver_succ (r - k) (hroom (r - k))
    rw [hoffset, cut_odd, show k + (r - k) = r by omega] at hlast hodd
    refine ⟨by simp, ?_⟩
    rw [Nat.add_zero, hindex]
    refine ⟨hlast, ?_⟩
    rw [hodd]
    exact aligned_straddle (slot_sent hins r) (slot_sent hins (r + 1)) fun hne => absurd hr.1 hne
  | succ m ih =>
    obtain ⟨henq, hcut⟩ := ih
    obtain ⟨hnext, hlast, hodd⟩ := receiver_succ (r + 1 - k + m) (hroom (r + 1 - k + m))
    rw [hoffset, cut_odd, show k + (r + 1 - k + m) = r + m + 1 by omega] at hnext hlast hodd
    obtain ⟨hdelivered, hflag⟩ :=
      hcut.step (slot_sent hins (r + m + 1)) (slot_sent hins (r + m + 1 + 1))
    refine ⟨?_, ⟨hlast, ?_⟩⟩
    · rw [← Nat.add_assoc, hnext, henq, filterMap_range_succ, hdelivered, List.append_assoc,
        show r + 1 + m = r + m + 1 by omega]
    · rw [← Nat.add_assoc, hodd]
      exact hflag

/-- **Alignment recovery.** The words of the user go out in their order, with idle words between
them. A receiver that starts at any byte and has room delivers, from the end of the first run of
commas on, the words of all slots that are no commas, each once and in order. -/
theorem alignment_recovery (cfg : CommaCfg) (ins : ℕ → SenderIn) (hins : ∀ n, (ins n).Clean)
    (l : Lane) (offset : Lane → ℕ) (receive : ℕ → Bool)
    (hroom : ∀ n, (receiver cfg ins l offset receive n).recvData.length < 10) :
    (∀ n, (List.range n).filterMap (fun k => (slot cfg ins l k).given) ++
        (sender cfg ins n).sendData l = taken cfg ins l n) ∧
      ∃ r, RunEnd cfg ins l r ∧ offset l / 2 ≤ r ∧
        (∀ k, offset l / 2 ≤ k → k < r → ¬ RunEnd cfg ins l k) ∧
        ∀ m, (receiver cfg ins l offset receive (r + 1 - offset l / 2 + m)).enqueued =
          (receiver cfg ins l offset receive (r + 1 - offset l / 2)).enqueued ++
            (List.range m).filterMap (fun n => (slot cfg ins l (r + 1 + n)).payload) := by
  refine ⟨given_taken, ?_⟩
  classical
  have hexists : ∃ r, offset l / 2 ≤ r ∧ RunEnd cfg ins l r := runEnd_exists _
  obtain ⟨hle, hend⟩ := Nat.find_spec hexists
  refine ⟨Nat.find hexists, hend, hle, fun k hk hless hrun => ?_, fun m => ?_⟩
  · exact Nat.find_min hexists hless ⟨hk, hrun⟩
  · rcases Nat.mod_two_eq_zero_or_one (offset l) with heven | hodd
    · have hoffset : offset l = 2 * (offset l / 2) := by omega
      exact (recovers_even hins hroom hoffset hend hle m).1
    · have hoffset : offset l = 2 * (offset l / 2) + 1 := by omega
      exact (recovers_odd hins hroom hoffset hend hle m).1

end Receiving

/-- A user that takes every word keeps up. -/
theorem length_recvData (cfg : CommaCfg) (ins : ℕ → SenderIn) (l : Lane) (offset : Lane → ℕ)
    (n : ℕ) : (receiver cfg ins l offset (fun _ => true) n).recvData.length ≤ 1 := by
  induction n with
  | zero => exact Nat.zero_le 1
  | succ n ih =>
    have henq : ∀ s : Receiver, ∀ w, (s.enq w).length ≤ 1 := by
      intro s w
      rw [Receiver.enq]
      split <;> simp
    have hxfer : ∀ (s : Receiver) (e k : BitVec 2) (d : BitVec 16),
        (s.xferRecvData e k d).recvData.length ≤ s.recvData.length + 1 := by
      intro s e k d
      have hlen := henq s (unpackRxWord e k d comma)
      rw [Receiver.xferRecvData]
      split
      · omega
      · rw [List.length_append]
        omega
    have hlen : ((receiver cfg ins l offset (fun _ => true) n).xfer (ugOut cfg ins offset n)
        l).recvData.length ≤ (receiver cfg ins l offset (fun _ => true) n).recvData.length + 1 := by
      cases l <;> exact hxfer _ _ _ _
    rw [receiver, Receiver.next]
    by_cases hempty : (receiver cfg ins l offset (fun _ => true) n).recvData = []
    · rw [hempty] at hlen
      simpa [hempty] using hlen
    · simp only [hempty, ne_eq, not_false_eq_true, and_self, if_true, List.length_tail]
      omega

/-- A word a clock for the first lane, with a run of two commas behind every three words. -/
def sampleCfg : CommaCfg := ⟨3, 2, by decide, by decide, by decide, by decide⟩

def sampleWord (n : ℕ) : SerdesWord := ⟨serdesData 0xBE, serdesData (BitVec.ofNat 8 n)⟩

def sampleIn (n : ℕ) : SenderIn := ⟨some (sampleWord n), none⟩

theorem sampleIn_clean (n : ℕ) : (sampleIn n).Clean := by
  refine ⟨fun w hw => ?_, by rintro w ⟨⟩⟩
  obtain rfl := Option.some.inj hw
  constructor <;> rintro ⟨⟩

/-- A receiver with an odd cut, which starts in the first run. -/
theorem alignment_recovery_sample :
    (receiver sampleCfg sampleIn .lane0 (fun _ => 1) (fun _ => true) 10).enqueued =
      (receiver sampleCfg sampleIn .lane0 (fun _ => 1) (fun _ => true) 2).enqueued ++
        [sampleWord 0, sampleWord 1, sampleWord 2, sampleWord 3, sampleWord 4, sampleWord 5] := by
  obtain ⟨-, r, hend, -, hfirst, hall⟩ := alignment_recovery sampleCfg sampleIn sampleIn_clean .lane0
    (fun _ => 1) (fun _ => true)
    fun n => Nat.lt_of_le_of_lt (length_recvData _ _ _ _ n) (by decide)
  obtain rfl : r = 1 := by
    have hrun : RunEnd sampleCfg sampleIn .lane0 1 := (runEnd_iff 1).mpr (by decide)
    have hnone : ¬ RunEnd sampleCfg sampleIn .lane0 0 := fun h =>
      absurd ((runEnd_iff 0).mp h) (by decide)
    have hle : r ≤ 1 := by
      by_contra hlt
      exact hfirst 1 (by omega) (by omega) hrun
    have hne : r ≠ 0 := by
      rintro rfl
      exact hnone hend
    omega
  have hsent : (List.range 8).filterMap
      (fun n => (slot sampleCfg sampleIn .lane0 (1 + 1 + n)).payload) =
        [sampleWord 0, sampleWord 1, sampleWord 2, sampleWord 3, sampleWord 4, sampleWord 5] := by
    decide
  have height := hall 8
  rw [hsent] at height
  exact height

end SataUsrp

end LeapPlatforms
