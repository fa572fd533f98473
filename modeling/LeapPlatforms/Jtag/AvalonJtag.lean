import LeapPlatforms.Foundation.TransitionSystem
import Mathlib.Algebra.Order.Ring.Nat
import Mathlib.Data.List.Pairwise

/-!
# The Avalon driver of the JTAG UART

The driver keeps an estimate of the space in the UART, and sends a byte for each unit of it. When it
has none left it reads the control register, and it sends nothing until the answer is there. In
turns with this it polls the data register for bytes of the host. Both kinds of answers come through
one queue.

The Avalon master performs the requests in order, and its answers come in order, each at any time.

## Main definitions

* `JtagData`, `JtagControl` — what the registers say
* `AvalonJtag` — the driver, the bus and the UART, with what went through them
* `Act`, `AvalonJtag.fire`
* `AvalonJtag.Sound` — the invariant

## Main results

* `Sound.fire`
* `sound_of_reachable`
-/

namespace LeapPlatforms

namespace Jtag

/-! ### The registers of the UART -/

abbrev JtagWord := BitVec 8

structure JtagData where
  ravail : BitVec 16
  rvalid : Bool
  data : JtagWord

namespace JtagData

def pack (d : JtagData) : BitVec 32 :=
  d.ravail ++ (BitVec.ofBool d.rvalid ++ (0#7 ++ d.data))

def unpack (d : BitVec 32) : JtagData := ⟨d.extractLsb' 16 16, d[15], d.extractLsb' 0 8⟩

theorem unpack_pack (d : JtagData) : unpack d.pack = d := by
  obtain ⟨ravail, rvalid, data⟩ := d
  have hravail : (pack ⟨ravail, rvalid, data⟩).extractLsb' 16 16 = ravail :=
    BitVec.extractLsb'_append_eq_left
  have hlow : (pack ⟨ravail, rvalid, data⟩).extractLsb' 0 16 =
      BitVec.ofBool rvalid ++ (0#7 ++ data) := BitVec.extractLsb'_append_eq_right
  have hdata : (pack ⟨ravail, rvalid, data⟩).extractLsb' 0 8 = data := by
    have hsplit : (pack ⟨ravail, rvalid, data⟩).extractLsb' 0 8 =
        ((pack ⟨ravail, rvalid, data⟩).extractLsb' 0 16).extractLsb' 0 8 := by
      ext i hi
      simp
    have hbyte : (BitVec.ofBool rvalid ++ (0#7 ++ data)).extractLsb' 0 8 =
        (0#7 ++ data).extractLsb' 0 8 := BitVec.extractLsb'_append_eq_of_add_le (by decide)
    rw [hsplit, hlow, hbyte]
    exact BitVec.extractLsb'_append_eq_right
  have hvalid : (pack ⟨ravail, rvalid, data⟩)[15] = rvalid := by
    have hbit : (pack ⟨ravail, rvalid, data⟩)[15] =
        ((pack ⟨ravail, rvalid, data⟩).extractLsb' 0 16)[15] := by simp
    have htop : (BitVec.ofBool rvalid ++ (0#7 ++ data))[15] = rvalid := by
      rw [BitVec.getElem_append, dif_neg (by decide)]
      cases rvalid <;> rfl
    rw [hbit, hlow]
    exact htop
  rw [unpack, hravail, hdata, hvalid]

end JtagData

structure JtagControl where
  wspace : BitVec 16

namespace JtagControl

def unpack (d : BitVec 32) : JtagControl := ⟨d.extractLsb' 16 16⟩

end JtagControl

/-- What an answer is for. -/
inductive JtagAvalonRequest
  | readData
  | writePoll
  deriving DecidableEq

inductive AvalonCommand
  | read
  | write
  deriving DecidableEq

structure AvalonRequest where
  addr : BitVec 32
  data : BitVec 32
  command : AvalonCommand

/-! ### The driver, the bus and the UART -/

/-- `JTAG_BASE_ADDR`, and how many bytes the UART holds for the host. -/
structure JtagCfg where
  base : BitVec 32
  depth : ℕ
  depth_lt : depth < 2 ^ 16

/-- The registers of the driver, the requests and answers on the bus, and the two queues of the
UART. Beside an answer stands what it is an answer to. What went through is kept: the bytes that the
user sent, those that the UART took and those it had no room for, those it gave to the host, those
the host typed, those the UART answered with, and those the user received. -/
structure AvalonJtag where
  inQ : List JtagWord := []
  outQ : List JtagWord := []
  reqQ : List JtagAvalonRequest := []
  isRead : Bool := true
  wrSpace : BitVec 16 := 0
  waitRdRsp : Bool := false
  waitWrRsp : Bool := false
  requests : List AvalonRequest := []
  responses : List (JtagAvalonRequest × BitVec 32) := []
  writeFifo : List JtagWord := []
  readFifo : List JtagWord := []
  sent : List JtagWord := []
  written : List JtagWord := []
  lost : List JtagWord := []
  drained : List JtagWord := []
  typed : List JtagWord := []
  answered : List JtagWord := []
  received : List JtagWord := []

/-- The rules and methods of the driver, and what happens around it. Bits that the source leaves
open are those of an argument. -/
inductive Act
  | toggleIsRead
  | writePollReq (undef : BitVec 32)
  | writeReq (undef : BitVec 32)
  | readPollReq (undef : BitVec 32)
  | getMasterResp
  | send (word : JtagWord)
  | receive
  /-- The UART performs a request. -/
  | perform (undef : BitVec 32)
  /-- The host takes a byte. -/
  | drain
  /-- The host types a byte. -/
  | type (word : JtagWord)

namespace AvalonJtag

variable (cfg : JtagCfg) (s : AvalonJtag)

def toggleIsRead : AvalonJtag := { s with isRead := !s.isRead }

def writePollReq (undef : BitVec 32) : Option AvalonJtag :=
  if s.isRead = false ∧ s.inQ ≠ [] ∧ s.wrSpace = 0 ∧ s.waitWrRsp = false ∧ s.reqQ.length < 2 then
    some { s with
      requests := s.requests ++ [⟨cfg.base + 4, undef, .read⟩]
      reqQ := s.reqQ ++ [.writePoll]
      waitWrRsp := true }
  else none

def writeReq (undef : BitVec 32) : Option AvalonJtag :=
  match s.inQ with
  | first :: rest =>
    if s.isRead = false ∧ 0 < s.wrSpace then
      some { s with
        inQ := rest
        requests := s.requests ++
          [⟨cfg.base, JtagData.pack ⟨undef.extractLsb' 16 16, undef[15], first⟩, .write⟩]
        wrSpace := s.wrSpace - 1 }
    else none
  | [] => none

def readPollReq (undef : BitVec 32) : Option AvalonJtag :=
  if s.isRead = true ∧ s.waitRdRsp = false ∧ s.reqQ.length < 2 then
    some { s with
      requests := s.requests ++ [⟨cfg.base, undef, .read⟩]
      reqQ := s.reqQ ++ [.readData]
      waitRdRsp := true }
  else none

def getMasterResp : Option AvalonJtag :=
  match s.responses, s.reqQ with
  | (_, resp) :: responses, .readData :: reqQ =>
    if (JtagData.unpack resp).rvalid then
      if s.outQ.length < 2 then
        some { s with
          responses := responses, reqQ := reqQ, waitRdRsp := false
          outQ := s.outQ ++ [(JtagData.unpack resp).data] }
      else none
    else some { s with responses := responses, reqQ := reqQ, waitRdRsp := false }
  | (_, resp) :: responses, .writePoll :: reqQ =>
    some { s with
      responses := responses, reqQ := reqQ, waitWrRsp := false
      wrSpace := (JtagControl.unpack resp).wspace }
  | _, _ => none

def send (word : JtagWord) : Option AvalonJtag :=
  if s.inQ.length < 2 then some { s with inQ := s.inQ ++ [word], sent := s.sent ++ [word] }
  else none

def receive : Option AvalonJtag :=
  match s.outQ with
  | first :: rest => some { s with outQ := rest, received := s.received ++ [first] }
  | [] => none

/-- A byte is written into the UART. -/
def takeByte (word : JtagWord) : AvalonJtag :=
  if s.writeFifo.length < cfg.depth then
    { s with writeFifo := s.writeFifo ++ [word], written := s.written ++ [word] }
  else { s with lost := s.lost ++ [word] }

/-- The data register is read. -/
def giveByte (undef : BitVec 32) : AvalonJtag :=
  match s.readFifo with
  | first :: rest =>
    { s with
      readFifo := rest, answered := s.answered ++ [first]
      responses := s.responses ++
        [(.readData, JtagData.pack ⟨undef.extractLsb' 16 16, true, first⟩)] }
  | [] =>
    { s with
      responses := s.responses ++
        [(.readData, JtagData.pack ⟨undef.extractLsb' 16 16, false, undef.extractLsb' 0 8⟩)] }

/-- The control register is read. -/
def giveSpace (undef : BitVec 32) : AvalonJtag :=
  { s with
    responses := s.responses ++
      [(.writePoll,
        BitVec.ofNat 16 (cfg.depth - s.writeFifo.length) ++ undef.extractLsb' 0 16)] }

def perform (undef : BitVec 32) : Option AvalonJtag :=
  match s.requests with
  | r :: rest =>
    match r.command with
    | .write => some { s.takeByte cfg (r.data.extractLsb' 0 8) with requests := rest }
    | .read =>
      if r.addr = cfg.base then some { s.giveByte undef with requests := rest }
      else some { s.giveSpace cfg undef with requests := rest }
  | [] => none

def drain : Option AvalonJtag :=
  match s.writeFifo with
  | first :: rest => some { s with writeFifo := rest, drained := s.drained ++ [first] }
  | [] => none

def typeByte (word : JtagWord) : AvalonJtag :=
  { s with readFifo := s.readFifo ++ [word], typed := s.typed ++ [word] }

def fire : Act → Option AvalonJtag
  | .toggleIsRead => some s.toggleIsRead
  | .writePollReq undef => s.writePollReq cfg undef
  | .writeReq undef => s.writeReq cfg undef
  | .readPollReq undef => s.readPollReq cfg undef
  | .getMasterResp => s.getMasterResp
  | .send word => s.send word
  | .receive => s.receive
  | .perform undef => s.perform cfg undef
  | .drain => s.drain
  | .type word => some (s.typeByte word)

/-- The driver with its UART, from a reset on. -/
def system : TransitionSystem AvalonJtag where
  init s := s = {}
  step s t := ∃ a, s.fire cfg a = some t

end AvalonJtag

/-! ### What is on the bus -/

namespace AvalonRequest

variable (cfg : JtagCfg)

/-- The byte of a write. -/
def byte? (r : AvalonRequest) : Option JtagWord :=
  match r.command with
  | .write => some (r.data.extractLsb' 0 8)
  | .read => none

/-- What a read is for. -/
def kind? (r : AvalonRequest) : Option JtagAvalonRequest :=
  match r.command with
  | .write => none
  | .read => some (if r.addr = cfg.base then .readData else .writePoll)

end AvalonRequest

/-- The byte that an answer brings. -/
def answerByte? (x : JtagAvalonRequest × BitVec 32) : Option JtagWord :=
  match x.1 with
  | .readData => if (JtagData.unpack x.2).rvalid then some (JtagData.unpack x.2).data else none
  | .writePoll => none

namespace AvalonJtag

variable {cfg : JtagCfg} {s t : AvalonJtag}

/-- The data writes that were not yet performed. -/
def inFlight (s : AvalonJtag) : List JtagWord := s.requests.filterMap AvalonRequest.byte?

/-- The space that the UART has. -/
def free (cfg : JtagCfg) (s : AvalonJtag) : ℕ := cfg.depth - s.writeFifo.length

/-- What holds in every state. -/
structure Sound (cfg : JtagCfg) (s : AvalonJtag) : Prop where
  /-- The answers and the reads on the bus are those in the queue, in order. -/
  queue : s.reqQ = s.responses.map Prod.fst ++ s.requests.filterMap (AvalonRequest.kind? cfg)
  /-- Of each kind there is one at most. -/
  waitRd : s.reqQ.count .readData = s.waitRdRsp.toNat
  waitWr : s.reqQ.count .writePoll = s.waitWrRsp.toNat
  /-- There is no estimate while a poll is on its way. -/
  polling : s.waitWrRsp = true → s.wrSpace = 0
  /-- No write is behind a poll. -/
  behind : s.requests.Pairwise fun r q => r.kind? cfg = some .writePoll → q.byte? = none
  fits : s.writeFifo.length ≤ cfg.depth
  /-- The estimate is safe. -/
  space : s.wrSpace.toNat + s.inFlight.length ≤ s.free cfg
  /-- And so is one that is on its way. -/
  answer : ∀ v, (JtagAvalonRequest.writePoll, v) ∈ s.responses →
    (JtagControl.unpack v).wspace.toNat + s.inFlight.length ≤ s.free cfg
  lost : s.lost = []
  outward : s.written ++ s.inFlight ++ s.inQ = s.sent
  drained : s.drained ++ s.writeFifo = s.written
  inward : s.received ++ s.outQ ++ s.responses.filterMap answerByte? = s.answered
  typed : s.answered ++ s.readFifo = s.typed

theorem sound_start : Sound cfg {} := by
  refine ⟨rfl, rfl, rfl, ?_, .nil, Nat.zero_le _, Nat.zero_le _, ?_, rfl, rfl, rfl, rfl, rfl⟩
  · rintro ⟨⟩
  · intro v hv
    cases hv

theorem kind_poll (undef : BitVec 32) :
    AvalonRequest.kind? cfg ⟨cfg.base + 4, undef, .read⟩ = some .writePoll := by
  have hne : cfg.base + 4 ≠ cfg.base := by bv_omega
  exact congrArg some (if_neg hne)

theorem kind_data (undef : BitVec 32) :
    AvalonRequest.kind? cfg ⟨cfg.base, undef, .read⟩ = some .readData :=
  congrArg some (if_pos rfl)

/-- Without a poll that waits there is none on the bus. -/
theorem Sound.no_poll (h : Sound cfg s) (hwait : s.waitWrRsp = false) :
    (∀ v, (JtagAvalonRequest.writePoll, v) ∉ s.responses) ∧
      ∀ r ∈ s.requests, r.kind? cfg ≠ some .writePoll := by
  have hcount := h.waitWr
  rw [hwait, h.queue, Bool.toNat_false, List.count_eq_zero, List.mem_append, not_or] at hcount
  refine ⟨fun v hv => hcount.1 (List.mem_map.mpr ⟨_, hv, rfl⟩), fun r hr hkind => ?_⟩
  exact hcount.2 (List.mem_filterMap.mpr ⟨r, hr, hkind⟩)

/-- A read goes on the bus. -/
theorem Sound.ask (h : Sound cfg s) {r : AvalonRequest} {k : JtagAvalonRequest} {rd wr : Bool}
    (hkind : r.kind? cfg = some k) (hbyte : r.byte? = none)
    (hrd : (s.reqQ ++ [k]).count .readData = rd.toNat)
    (hwr : (s.reqQ ++ [k]).count .writePoll = wr.toNat) (hpoll : wr = true → s.wrSpace = 0) :
    Sound cfg { s with
      requests := s.requests ++ [r], reqQ := s.reqQ ++ [k], waitRdRsp := rd, waitWrRsp := wr } := by
  have hflight : List.filterMap AvalonRequest.byte? (s.requests ++ [r]) = s.inFlight := by
    simp [inFlight, List.filterMap_append, hbyte]
  refine ⟨?_, hrd, hwr, hpoll, ?_, h.fits, ?_, ?_, h.lost, ?_, h.drained, h.inward, h.typed⟩
  · show s.reqQ ++ [k] = _
    rw [h.queue]
    simp [List.filterMap_append, hkind]
  · refine List.pairwise_append.mpr ⟨h.behind, List.pairwise_singleton _ _, ?_⟩
    intro q _ r' hr' _
    obtain rfl := List.mem_singleton.mp hr'
    exact hbyte
  · show _ + (List.filterMap _ _).length ≤ _
    rw [hflight]
    exact h.space
  · intro v hv
    show _ + (List.filterMap _ _).length ≤ _
    rw [hflight]
    exact h.answer v hv
  · show _ ++ List.filterMap _ _ ++ _ = _
    rw [hflight]
    exact h.outward

theorem Sound.writePollReq (h : Sound cfg s) {undef : BitVec 32}
    (ht : s.writePollReq cfg undef = some t) : Sound cfg t := by
  rw [AvalonJtag.writePollReq] at ht
  split at ht
  · next hguard =>
    obtain ⟨-, -, hzero, hwait, -⟩ := hguard
    obtain rfl := Option.some.inj ht
    refine h.ask (kind_poll undef) rfl ?_ ?_ fun _ => hzero
    · rw [List.count_append, h.waitRd]
      rfl
    · rw [List.count_append, h.waitWr, hwait]
      rfl
  · cases ht

theorem Sound.readPollReq (h : Sound cfg s) {undef : BitVec 32}
    (ht : s.readPollReq cfg undef = some t) : Sound cfg t := by
  rw [AvalonJtag.readPollReq] at ht
  split at ht
  · next hguard =>
    obtain ⟨-, hwait, -⟩ := hguard
    obtain rfl := Option.some.inj ht
    refine h.ask (kind_data undef) rfl ?_ ?_ h.polling
    · rw [List.count_append, h.waitRd, hwait]
      rfl
    · rw [List.count_append, h.waitWr]
      rfl
  · cases ht

/-- A byte goes on the bus, and with it a unit of the estimate. -/
theorem Sound.writeReq (h : Sound cfg s) {undef : BitVec 32} (ht : s.writeReq cfg undef = some t) :
    Sound cfg t := by
  rw [AvalonJtag.writeReq] at ht
  cases hin : s.inQ with
  | nil => rw [hin] at ht; cases ht
  | cons first rest =>
    rw [hin] at ht
    simp only at ht
    split at ht
    · next hguard =>
      obtain ⟨-, hspace⟩ := hguard
      obtain rfl := Option.some.inj ht
      have hwait : s.waitWrRsp = false := by
        cases hwait : s.waitWrRsp with
        | false => rfl
        | true =>
          rw [h.polling hwait] at hspace
          exact absurd hspace (by decide)
      obtain ⟨hnoAnswer, hnoPoll⟩ := h.no_poll hwait
      have hbyte : AvalonRequest.byte? ⟨cfg.base,
          JtagData.pack ⟨undef.extractLsb' 16 16, undef[15], first⟩, .write⟩ = some first :=
        congrArg (fun d => some (JtagData.data d)) (JtagData.unpack_pack _)
      have hflight : List.filterMap AvalonRequest.byte? (s.requests ++ [⟨cfg.base,
          JtagData.pack ⟨undef.extractLsb' 16 16, undef[15], first⟩, .write⟩]) =
            s.inFlight ++ [first] := by
        simp [inFlight, List.filterMap_append, hbyte]
      have hless : (s.wrSpace - 1).toNat + 1 = s.wrSpace.toNat := by bv_omega
      refine ⟨?_, h.waitRd, h.waitWr, fun hwait' => ?_, ?_, h.fits, ?_, ?_, h.lost, ?_, h.drained,
        h.inward, h.typed⟩
      · show s.reqQ = _
        rw [h.queue, List.filterMap_append]
        exact congrArg _ (List.append_nil _).symm
      · cases hwait.symm.trans hwait'
      · refine List.pairwise_append.mpr ⟨h.behind, List.pairwise_singleton _ _, ?_⟩
        intro r hr q _ hkind
        exact absurd hkind (hnoPoll r hr)
      · have hsafe := h.space
        show _ + (List.filterMap _ _).length ≤ _
        rw [hflight, List.length_append, List.length_singleton]
        show (s.wrSpace - 1).toNat + _ ≤ s.free cfg
        omega
      · intro v hv
        exact absurd hv (hnoAnswer v)
      · have hout := h.outward
        rw [hin] at hout
        show _ ++ List.filterMap _ _ ++ rest = s.sent
        rw [hflight, ← hout]
        simp
    · cases ht

/-- An answer is taken. -/
theorem Sound.getMasterResp (h : Sound cfg s) (ht : s.getMasterResp = some t) : Sound cfg t := by
  have hqueue := h.queue
  have hrd := h.waitRd
  have hwr := h.waitWr
  have hin := h.inward
  rw [AvalonJtag.getMasterResp] at ht
  cases hresp : s.responses with
  | nil => rw [hresp] at ht; cases ht
  | cons x responses =>
    obtain ⟨k, resp⟩ := x
    have hanswer : ∀ v, (JtagAvalonRequest.writePoll, v) ∈ responses →
        (JtagControl.unpack v).wspace.toNat + s.inFlight.length ≤ s.free cfg := by
      intro v hv
      refine h.answer v ?_
      rw [hresp]
      exact List.mem_cons_of_mem _ hv
    rw [hresp, List.map_cons, List.cons_append] at hqueue
    dsimp only at hqueue
    rw [hresp] at hin
    rw [hqueue] at hrd hwr
    rw [hresp, hqueue] at ht
    cases k with
    | readData =>
      have hnone := Bool.toNat_le s.waitRdRsp
      rw [List.count_cons_self] at hrd
      rw [List.count_cons_of_ne (by decide)] at hwr
      have hzero : List.count .readData (responses.map Prod.fst ++
          s.requests.filterMap (AvalonRequest.kind? cfg)) = 0 := by omega
      simp only at ht
      split at ht
      · next hvalid =>
        split at ht
        · obtain rfl := Option.some.inj ht
          refine
            { h with queue := rfl, waitRd := hzero, waitWr := hwr, answer := hanswer, inward := ?_ }
          rw [List.filterMap_cons_some (show answerByte? (.readData, resp) =
            some (JtagData.unpack resp).data from if_pos hvalid)] at hin
          show s.received ++ (s.outQ ++ [(JtagData.unpack resp).data]) ++ _ = _
          rw [← hin]
          simp
        · cases ht
      · next hvalid =>
        obtain rfl := Option.some.inj ht
        refine
          { h with queue := rfl, waitRd := hzero, waitWr := hwr, answer := hanswer, inward := ?_ }
        rw [List.filterMap_cons_none (show answerByte? (.readData, resp) = none from
          if_neg hvalid)] at hin
        exact hin
    | writePoll =>
      have hnone := Bool.toNat_le s.waitWrRsp
      rw [List.count_cons_self] at hwr
      rw [List.count_cons_of_ne (by decide)] at hrd
      have hzero : List.count .writePoll (responses.map Prod.fst ++
          s.requests.filterMap (AvalonRequest.kind? cfg)) = 0 := by omega
      obtain rfl := Option.some.inj ht
      refine { h with
        queue := rfl, waitRd := hrd, waitWr := hzero, polling := ?_, space := ?_, answer := hanswer
        inward := ?_ }
      · rintro ⟨⟩
      · refine h.answer resp ?_
        rw [hresp]
        exact List.mem_cons_self
      · rw [List.filterMap_cons_none rfl] at hin
        exact hin

theorem Sound.send (h : Sound cfg s) {word : JtagWord} (ht : s.send word = some t) :
    Sound cfg t := by
  rw [AvalonJtag.send] at ht
  split at ht
  · obtain rfl := Option.some.inj ht
    refine { h with outward := ?_ }
    show s.written ++ s.inFlight ++ (s.inQ ++ [word]) = s.sent ++ [word]
    rw [← List.append_assoc, h.outward]
  · cases ht

theorem Sound.receive (h : Sound cfg s) (ht : s.receive = some t) : Sound cfg t := by
  have hin := h.inward
  rw [AvalonJtag.receive] at ht
  cases hout : s.outQ with
  | nil => rw [hout] at ht; cases ht
  | cons first rest =>
    rw [hout] at ht hin
    obtain rfl := Option.some.inj ht
    refine { h with inward := ?_ }
    show s.received ++ [first] ++ rest ++ _ = _
    rw [← hin]
    simp

/-- The data register answers. -/
theorem Sound.giveByte (h : Sound cfg s) {undef : BitVec 32} {rest : List AvalonRequest}
    (hqueue : s.reqQ = s.responses.map Prod.fst ++
      .readData :: rest.filterMap (AvalonRequest.kind? cfg))
    (hbehind : rest.Pairwise fun r q => r.kind? cfg = some .writePoll → q.byte? = none)
    (hspace : s.wrSpace.toNat + (rest.filterMap AvalonRequest.byte?).length ≤ s.free cfg)
    (hout : s.written ++ rest.filterMap AvalonRequest.byte? ++ s.inQ = s.sent)
    (hanswer : ∀ v, (JtagAvalonRequest.writePoll, v) ∈ s.responses →
      (JtagControl.unpack v).wspace.toNat + (rest.filterMap AvalonRequest.byte?).length ≤
        s.free cfg) :
    Sound cfg { s.giveByte undef with requests := rest } := by
  have hkept : ∀ resp v, (JtagAvalonRequest.writePoll, v) ∈ s.responses ++ [(.readData, resp)] →
      (JtagAvalonRequest.writePoll, v) ∈ s.responses := by
    intro resp v hv
    rcases List.mem_append.mp hv with hv | hv
    · exact hv
    · cases List.mem_singleton.mp hv
  cases hfifo : s.readFifo with
  | nil =>
    have htyped := h.typed
    rw [hfifo] at htyped
    rw [AvalonJtag.giveByte, hfifo]
    refine { h with
      queue := ?_, behind := hbehind, space := hspace, answer := ?_, outward := hout, inward := ?_
      typed := htyped }
    · show s.reqQ = List.map Prod.fst (s.responses ++ [_]) ++ _
      rw [hqueue]
      simp
    · intro v hv
      exact hanswer v (hkept _ v hv)
    · have hnone : answerByte? (.readData,
          JtagData.pack ⟨undef.extractLsb' 16 16, false, undef.extractLsb' 0 8⟩) = none := by
        rw [answerByte?, JtagData.unpack_pack]
        rfl
      show _ ++ List.filterMap answerByte? (s.responses ++ [_]) = s.answered
      rw [List.filterMap_append, List.filterMap_cons_none hnone, List.filterMap_nil,
        List.append_nil]
      exact h.inward
  | cons first fifo =>
    have htyped := h.typed
    rw [hfifo] at htyped
    rw [AvalonJtag.giveByte, hfifo]
    refine { h with
      queue := ?_, behind := hbehind, space := hspace, answer := ?_, outward := hout, inward := ?_
      typed := ?_ }
    · show s.reqQ = List.map Prod.fst (s.responses ++ [_]) ++ _
      rw [hqueue]
      simp
    · intro v hv
      exact hanswer v (hkept _ v hv)
    · have hsome : answerByte? (.readData,
          JtagData.pack ⟨undef.extractLsb' 16 16, true, first⟩) = some first := by
        rw [answerByte?, JtagData.unpack_pack]
        rfl
      show _ ++ List.filterMap answerByte? (s.responses ++ [_]) = s.answered ++ [first]
      rw [List.filterMap_append, List.filterMap_cons_some hsome, List.filterMap_nil,
        ← List.append_assoc]
      exact congrArg (· ++ [first]) h.inward
    · show s.answered ++ [first] ++ fifo = s.typed
      rw [← htyped]
      simp

/-- The control register answers, with no write behind the read. -/
theorem Sound.giveSpace (h : Sound cfg s) {undef : BitVec 32} {rest : List AvalonRequest}
    (hqueue : s.reqQ = s.responses.map Prod.fst ++
      .writePoll :: rest.filterMap (AvalonRequest.kind? cfg))
    (hbehind : rest.Pairwise fun r q => r.kind? cfg = some .writePoll → q.byte? = none)
    (hnone : rest.filterMap AvalonRequest.byte? = [])
    (hspace : s.wrSpace.toNat + (rest.filterMap AvalonRequest.byte?).length ≤ s.free cfg)
    (hout : s.written ++ rest.filterMap AvalonRequest.byte? ++ s.inQ = s.sent)
    (hanswer : ∀ v, (JtagAvalonRequest.writePoll, v) ∈ s.responses →
      (JtagControl.unpack v).wspace.toNat + (rest.filterMap AvalonRequest.byte?).length ≤
        s.free cfg) :
    Sound cfg { s.giveSpace cfg undef with requests := rest } := by
  refine { h with
    queue := ?_, behind := hbehind, space := hspace, answer := ?_, outward := hout, inward := ?_ }
  · show s.reqQ = List.map Prod.fst (s.responses ++ [_]) ++ _
    rw [hqueue]
    simp
  · intro v hv
    rcases List.mem_append.mp hv with hv | hv
    · exact hanswer v hv
    · obtain rfl := congrArg Prod.snd (List.mem_singleton.mp hv)
      have hwspace : (JtagControl.unpack (BitVec.ofNat 16 (cfg.depth - s.writeFifo.length) ++
          undef.extractLsb' 0 16)).wspace = BitVec.ofNat 16 (cfg.depth - s.writeFifo.length) :=
        BitVec.extractLsb'_append_eq_left
      have hlt := cfg.depth_lt
      show _ + (rest.filterMap AvalonRequest.byte?).length ≤ cfg.depth - s.writeFifo.length
      rw [hwspace, hnone, BitVec.toNat_ofNat]
      exact Nat.mod_le _ _
  · show _ ++ List.filterMap answerByte? (s.responses ++ [_]) = s.answered
    rw [List.filterMap_append, List.filterMap_cons_none rfl, List.filterMap_nil, List.append_nil]
    exact h.inward

/-- A request leaves the bus. -/
theorem Sound.perform (h : Sound cfg s) {undef : BitVec 32} (ht : s.perform cfg undef = some t) :
    Sound cfg t := by
  have hqueue := h.queue
  have hspace := h.space
  have hout := h.outward
  have hbehind := h.behind
  rw [AvalonJtag.perform] at ht
  cases hreq : s.requests with
  | nil => rw [hreq] at ht; cases ht
  | cons r rest =>
    rw [hreq] at ht hqueue hbehind
    obtain ⟨hfirst, hrest⟩ := List.pairwise_cons.mp hbehind
    cases hcommand : r.command with
    | write =>
      have hbyte : r.byte? = some (r.data.extractLsb' 0 8) := by
        rw [AvalonRequest.byte?, hcommand]
      have hkind : r.kind? cfg = none := by rw [AvalonRequest.kind?, hcommand]
      have hflight : s.inFlight =
          r.data.extractLsb' 0 8 :: List.filterMap AvalonRequest.byte? rest := by
        rw [inFlight, hreq, List.filterMap_cons_some hbyte]
      rw [List.filterMap_cons_none hkind] at hqueue
      simp only [hcommand] at ht
      rw [hflight, List.length_cons, free] at hspace
      rw [hflight] at hout
      have hroom : s.writeFifo.length < cfg.depth := by omega
      rw [takeByte, if_pos hroom] at ht
      obtain rfl := Option.some.inj ht
      have hless : cfg.depth - (s.writeFifo ++ [r.data.extractLsb' 0 8]).length + 1 =
          cfg.depth - s.writeFifo.length := by
        rw [List.length_append, List.length_singleton]
        omega
      refine { h with
        queue := hqueue, behind := hrest, fits := ?_, space := ?_, answer := ?_, outward := ?_
        drained := ?_ }
      · show (s.writeFifo ++ [r.data.extractLsb' 0 8]).length ≤ cfg.depth
        rw [List.length_append, List.length_singleton]
        omega
      · show _ + (List.filterMap AvalonRequest.byte? rest).length ≤
          cfg.depth - (s.writeFifo ++ [r.data.extractLsb' 0 8]).length
        dsimp only
        omega
      · intro v hv
        have hanswer := h.answer v hv
        rw [hflight, List.length_cons, free] at hanswer
        show _ + (List.filterMap AvalonRequest.byte? rest).length ≤
          cfg.depth - (s.writeFifo ++ [r.data.extractLsb' 0 8]).length
        omega
      · show s.written ++ [r.data.extractLsb' 0 8] ++
          List.filterMap AvalonRequest.byte? rest ++ _ = _
        rw [← hout]
        simp
      · show s.drained ++ (s.writeFifo ++ [r.data.extractLsb' 0 8]) = _
        rw [← List.append_assoc, h.drained]
    | read =>
      have hbyte : r.byte? = none := by rw [AvalonRequest.byte?, hcommand]
      have hflight : s.inFlight = List.filterMap AvalonRequest.byte? rest := by
        rw [inFlight, hreq, List.filterMap_cons_none hbyte]
      simp only [hcommand] at ht
      rw [hflight] at hspace hout
      have hold : ∀ v, (JtagAvalonRequest.writePoll, v) ∈ s.responses →
          (JtagControl.unpack v).wspace.toNat + (List.filterMap AvalonRequest.byte? rest).length ≤
            s.free cfg := by
        intro v hv
        rw [← hflight]
        exact h.answer v hv
      split at ht
      · next hdata =>
        have hkind : r.kind? cfg = some .readData := by
          rw [AvalonRequest.kind?, hcommand]
          exact congrArg some (if_pos hdata)
        rw [List.filterMap_cons_some hkind] at hqueue
        obtain rfl := Option.some.inj ht
        exact h.giveByte hqueue hrest hspace hout hold
      · next hpoll =>
        have hkind : r.kind? cfg = some .writePoll := by
          rw [AvalonRequest.kind?, hcommand]
          exact congrArg some (if_neg hpoll)
        rw [List.filterMap_cons_some hkind] at hqueue
        have hnone : List.filterMap AvalonRequest.byte? rest = [] :=
          List.filterMap_eq_nil_iff.mpr fun q hq => hfirst q hq hkind
        obtain rfl := Option.some.inj ht
        exact h.giveSpace hqueue hrest hnone hspace hout hold

theorem Sound.drain (h : Sound cfg s) (ht : s.drain = some t) : Sound cfg t := by
  have hfits := h.fits
  have hspace := h.space
  have hdrained := h.drained
  rw [AvalonJtag.drain] at ht
  cases hfifo : s.writeFifo with
  | nil => rw [hfifo] at ht; cases ht
  | cons first rest =>
    rw [hfifo] at ht hfits hdrained
    have hfree : s.free cfg ≤ cfg.depth - rest.length := by
      rw [free, hfifo, List.length_cons]
      omega
    obtain rfl := Option.some.inj ht
    rw [List.length_cons] at hfits
    refine { h with fits := ?_, space := ?_, answer := ?_, drained := ?_ }
    · show rest.length ≤ cfg.depth
      omega
    · exact Nat.le_trans hspace hfree
    · intro v hv
      exact Nat.le_trans (h.answer v hv) hfree
    · show s.drained ++ [first] ++ rest = s.written
      rw [← hdrained]
      simp

theorem Sound.typeByte (h : Sound cfg s) (word : JtagWord) : Sound cfg (s.typeByte word) := by
  refine { h with typed := ?_ }
  show s.answered ++ (s.readFifo ++ [word]) = s.typed ++ [word]
  rw [← List.append_assoc, h.typed]

/-- Every step keeps the invariant. -/
theorem Sound.fire (h : Sound cfg s) {a : Act} (ht : s.fire cfg a = some t) : Sound cfg t := by
  cases a with
  | toggleIsRead =>
    obtain rfl := Option.some.inj ht
    exact { h with }
  | writePollReq undef => exact h.writePollReq ht
  | writeReq undef => exact h.writeReq ht
  | readPollReq undef => exact h.readPollReq ht
  | getMasterResp => exact h.getMasterResp ht
  | send word => exact h.send ht
  | receive => exact h.receive ht
  | perform undef => exact h.perform ht
  | drain => exact h.drain ht
  | type word =>
    obtain rfl := Option.some.inj ht
    exact h.typeByte word

theorem sound_of_reachable (h : (system cfg).Reachable s) : Sound cfg s := by
  refine h.invariant (P := Sound cfg) ?_ ?_
  · rintro s rfl
    exact sound_start
  · rintro s t hs ⟨a, ht⟩
    exact hs.fire ht

end AvalonJtag

end Jtag

end LeapPlatforms
