import LeapPlatforms.Foundation.QueuedRam
import LeapPlatforms.Foundation.Rotation
import LeapPlatforms.Foundation.TransitionSystem
import Mathlib.Algebra.Order.Ring.Nat
import Mathlib.Data.BitVec
import Mathlib.Data.List.FinRange
import Mathlib.Data.Nat.Log

/-!
# The emulated bank of `ddr-sdram-bram`

A bank of memory in block RAMs, one for each byte of a beat, so that a mask can keep a byte. An
address is that of a word; a beat is rotated so that the word addressed comes first. What the bank
should do is said of a flat memory of bytes: a command is a burst of beats, one after another, and
each of them has its bytes at places of the flat memory.

The block RAMs are guarded, and hold the answers of two reads. `rotateBy` and `rotateBitsBy` go the
same way, up. The depth of the delay queue, which stands for `readRespQ` when a latency is asked
for, is a parameter. The channels are queues; what comes and goes on them is recorded.

## Main definitions

* `Params`, `Bank`, `Rule`, `rule` — the bank
* `Op`, `place`, `Flat.step` — beats, and the flat memory that they are for
* `beatsOf` — the beats of some commands
* `Banking`, `banking` — the runs

## Main results

* `Reads.step`, `Serves.step`, `serves_of_reachable` — what each rule keeps
* `bank_is_memory`
-/

namespace LeapPlatforms

namespace Dram

namespace BramBank

open Rotation

/-- What a bank is built with. -/
structure Params where
  /-- `FPGA_DDR_BYTES_PER_WORD`. -/
  bytesPerWord : ℕ
  /-- The bits of a word's index in its beat. -/
  wordIdxBits : ℕ
  /-- `DRAM_ADDR_BITS`. -/
  addressBits : ℕ
  /-- `DRAM_MIN_BURST`. -/
  burstLength : ℕ
  /-- There is a last beat. -/
  burstLength_pos : 0 < burstLength
  /-- `DRAM_MAX_OUTSTANDING_READS`. -/
  maxOutstandingReads : ℕ
  /-- `DRAM_READ_LATENCY`. -/
  readLatency : ℕ
  /-- The depth of the delay queue. -/
  delayDepth : ℕ

variable (P : Params)

namespace Params

/-- `FPGA_DDR_BYTES_PER_BEAT`. -/
def bytesPerBeat : ℕ := 2 ^ P.wordIdxBits * P.bytesPerWord

/-- The bits of a beat's address. -/
def beatAddrBits : ℕ := P.addressBits - P.wordIdxBits

/-- `burst_idx_last`. -/
def burstIdxLast : ℕ := P.burstLength - 1

/-- The depth of `readRespQ`. -/
def readRespDepth : ℕ :=
  if P.readLatency = 0 then P.burstLength * P.maxOutstandingReads else P.delayDepth

end Params

/-- `FPGA_DDR_ADDRESS`. -/
abbrev Address : Type := BitVec P.addressBits

/-- A beat, as a vector of bytes. -/
abbrev Beat : Type := Fin P.bytesPerBeat → BitVec 8

/-- A mask: a bit that is set keeps the byte. -/
abbrev Mask : Type := Fin P.bytesPerBeat → Bool

/-- `FPGA_DDR_REQUEST`. -/
inductive Request
  | read (addr : Address P)
  | write (addr : Address P)

variable {P}

/-- `beatAddr`. -/
def beatAddr (addr : Address P) : ℕ := addr.toNat / 2 ^ P.wordIdxBits

/-- `wordIdx`. -/
def wordIdx (addr : Address P) : ℕ := addr.toNat % 2 ^ P.wordIdxBits

/-- `beat_addr` of a beat of a burst. -/
def burstAddr (addr : Address P) (cnt : ℕ) : ℕ := (beatAddr addr + cnt) % 2 ^ P.beatAddrBits

variable (P) in
/-- `rot_amt`. -/
def rotAmt (wordIdx : ℕ) : ℕ :=
  wordIdx * (if P.bytesPerBeat = P.bytesPerWord then 0 else P.bytesPerWord) %
    2 ^ Nat.clog 2 P.bytesPerBeat

/-! ### Flat memory -/

variable (P) in
/-- One beat of a burst. -/
inductive Op
  | read (addr : Address P) (cnt : ℕ)
  | write (addr : Address P) (cnt : ℕ) (data : Beat P) (mask : Mask P)

/-- Where the bytes of a beat are: from the word addressed on, and around the beat. -/
def place (addr : Address P) (cnt : ℕ) (b : Fin P.bytesPerBeat) : ℕ :=
  burstAddr addr cnt * P.bytesPerBeat + (wordIdx addr * P.bytesPerWord + b) % P.bytesPerBeat

variable (P) in
/-- A memory of bytes, and what was read from it. -/
structure Flat where
  /-- The bytes. -/
  mem : ℕ → BitVec 8
  /-- The beats read. -/
  beats : List (Beat P)

/-- The bytes of a beat are read, or those written that the mask does not keep. -/
def Flat.step (f : Flat P) : Op P → Flat P
  | .read addr cnt => { f with beats := f.beats ++ [fun b => f.mem (place addr cnt b)] }
  | .write addr cnt data mask =>
    { f with
      mem := (List.finRange P.bytesPerBeat).foldl (fun mem b =>
        if mask b then mem else Function.update mem (place addr cnt b) (data b)) f.mem }

/-- A flat memory after some beats. -/
def flat (mem : ℕ → BitVec 8) (ops : List (Op P)) : Flat P :=
  ops.foldl Flat.step { mem := mem, beats := [] }

/-- The beats of some commands: the first is at beat `r` of a read, or at beat `w` of a write. -/
def beatsFrom (r w : ℕ) : List (Request P) → List (Beat P × Mask P) → List (Op P)
  | [], _ => []
  | .read addr :: commands, data =>
    (List.range' r (P.burstLength - r)).map (.read addr) ++ beatsFrom 0 0 commands data
  | .write addr :: commands, data =>
    ((data.take (P.burstLength - w)).zipIdx w).map (fun x => .write addr x.2 x.1.1 x.1.2) ++
      if P.burstLength - w ≤ data.length then
        beatsFrom 0 0 commands (data.drop (P.burstLength - w))
      else []

/-- The beats of some commands, with the data for those that write. -/
def beatsOf (commands : List (Request P)) (data : List (Beat P × Mask P)) : List (Op P) :=
  beatsFrom 0 0 commands data

/-! ### The bank -/

variable (P) in
/-- The registers, queues and memories of a bank. -/
structure Bank where
  /-- `commandConnection`. -/
  commandQ : List (Request P)
  /-- `writeDataConnection`. -/
  writeDataQ : List (Beat P × Mask P)
  /-- `memory`, a RAM for each byte. -/
  memory : Fin P.bytesPerBeat → QueuedRam ℕ (BitVec 8)
  /-- `writeBurstCnt`. -/
  writeBurstCnt : ℕ
  /-- `readBurstCnt`. -/
  readBurstCnt : ℕ
  /-- `nInflightReads`. -/
  nInflightReads : ℕ
  /-- `calibrateMaxReads`. -/
  calibrateMaxReads : ℕ
  /-- `inflightReadQ`. -/
  inflightReadQ : List (ℕ × Bool)
  /-- `readRespQ`. -/
  readRespQ : List (Beat P × Bool)

/-- What is seen of a rule. -/
inductive Event (P : Params)
  | quiet
  | command (request : Request P)
  | writeData (data : Beat P) (mask : Mask P)
  | op (op : Op P)
  | sent (data : Beat P)

namespace Bank

variable (P) in
/-- After a reset, with some contents. -/
def reset (mem : ℕ → BitVec 8) : Bank P where
  commandQ := []
  writeDataQ := []
  memory b := { contents := fun a => mem (a * P.bytesPerBeat + b), pending := [] }
  writeBurstCnt := 0
  readBurstCnt := 0
  nInflightReads := 0
  calibrateMaxReads := P.maxOutstandingReads
  inflightReadQ := []
  readRespQ := []

variable (s : Bank P)

/-- `doWrite`. -/
def doWrite : Option (Bank P × Event P) :=
  match s.commandQ, s.writeDataQ with
  | .write addr :: commands, (data, mask) :: writeDataQ =>
    let rot := rotAmt P (wordIdx addr)
    let data_b := rotateBy data rot
    let mask_b := rotateBy mask rot
    let last := s.writeBurstCnt = P.burstIdxLast
    some ({ s with
      commandQ := if last then commands else s.commandQ
      writeDataQ := writeDataQ
      writeBurstCnt := if last then 0 else s.writeBurstCnt + 1
      memory := fun b =>
        -- Like DRAM, the write-enable mask is active low.
        if mask_b b then s.memory b
        else (s.memory b).write (burstAddr addr s.writeBurstCnt) (data_b b) },
      .op (.write addr s.writeBurstCnt data mask))
  | _, _ => none

/-- `setMaxReads`. -/
def setMaxReads (m : ℕ) : Option (Bank P × Event P) :=
  some ({ s with calibrateMaxReads := m }, .quiet)

/-- `doReadReq`. -/
def doReadReq : Option (Bank P × Event P) :=
  match s.commandQ with
  | .read addr :: commands =>
    if (s.nInflightReads < s.calibrateMaxReads ∧ s.nInflightReads < P.maxOutstandingReads) ∧
        s.inflightReadQ.length < 2 ∧ ∀ b, (s.memory b).pending.length < 2 then
      let last := s.readBurstCnt = P.burstIdxLast
      some ({ s with
        commandQ := if last then commands else s.commandQ
        readBurstCnt := if last then 0 else s.readBurstCnt + 1
        nInflightReads := if last then s.nInflightReads + 1 else s.nInflightReads
        memory := fun b => (s.memory b).readReq (burstAddr addr s.readBurstCnt)
        inflightReadQ := s.inflightReadQ ++ [(wordIdx addr, decide last)] },
        .op (.read addr s.readBurstCnt))
    else none
  | _ => none

/-- `doReadResp`. -/
def doReadResp : Option (Bank P × Event P) :=
  match s.inflightReadQ with
  | [] => none
  | (word, last) :: inflightReadQ =>
    if h : (∀ b, (s.memory b).pending ≠ []) ∧ s.readRespQ.length < P.readRespDepth then
      let data_b := fun b => (s.memory b).pending.head (h.1 b)
      some ({ s with
        inflightReadQ := inflightReadQ
        memory := fun b => { s.memory b with pending := (s.memory b).pending.tail }
        readRespQ := s.readRespQ ++ [(reverse (rotateBy (reverse data_b) (rotAmt P word)), last)] },
        .quiet)
    else none

/-- `readRsp`. -/
def readRsp : Option (Bank P × Event P) :=
  match s.readRespQ with
  | [] => none
  | (data, last) :: readRespQ =>
    some ({ s with
      readRespQ := readRespQ
      nInflightReads := if last then s.nInflightReads - 1 else s.nInflightReads }, .sent data)

end Bank

variable (P) in
/-- The rules, and what comes on the channels. -/
inductive Rule
  | command (request : Request P)
  | writeData (data : Beat P) (mask : Mask P)
  | doWrite
  | setMaxReads (m : ℕ)
  | doReadReq
  | doReadResp
  | readRsp

/-- What a rule does, if it can fire. -/
def rule (r : Rule P) (s : Bank P) : Option (Bank P × Event P) :=
  match r with
  | .command request => some ({ s with commandQ := s.commandQ ++ [request] }, .command request)
  | .writeData data mask =>
    some ({ s with writeDataQ := s.writeDataQ ++ [(data, mask)] }, .writeData data mask)
  | .doWrite => s.doWrite
  | .setMaxReads m => s.setMaxReads m
  | .doReadReq => s.doReadReq
  | .doReadResp => s.doReadResp
  | .readRsp => s.readRsp

/-! ### Runs -/

variable (P) in
/-- A bank, what came, what was done and what was sent. -/
structure Banking where
  /-- The bank. -/
  bank : Bank P
  /-- The commands that came. -/
  commands : List (Request P)
  /-- The write data that came. -/
  data : List (Beat P × Mask P)
  /-- The beats that were read or written. -/
  ops : List (Op P)
  /-- The beats sent. -/
  sent : List (Beat P)

/-- An event is recorded. -/
def Banking.record (s : Banking P) (bank : Bank P) : Event P → Banking P
  | .quiet => { s with bank := bank }
  | .command request => { s with bank := bank, commands := s.commands ++ [request] }
  | .writeData data mask => { s with bank := bank, data := s.data ++ [(data, mask)] }
  | .op op => { s with bank := bank, ops := s.ops ++ [op] }
  | .sent data => { s with bank := bank, sent := s.sent ++ [data] }

/-- What a rule makes of them. -/
def Banking.fire (r : Rule P) (s : Banking P) : Option (Banking P) :=
  (rule r s.bank).map fun (bank, event) => s.record bank event

variable (P) in
/-- The runs of a bank with some contents, whatever comes. -/
def banking (mem : ℕ → BitVec 8) : TransitionSystem (Banking P) where
  init s := s = { bank := .reset P mem, commands := [], data := [], ops := [], sent := [] }
  step s t := ∃ r, s.fire r = some t

/-! ### Places -/

/-- The bytes that a beat is rotated by are those of the words before the one addressed. -/
theorem rotAmt_wordIdx (addr : Address P) :
    rotAmt P (wordIdx addr) = wordIdx addr * P.bytesPerWord := by
  have hlt : wordIdx addr < 2 ^ P.wordIdxBits := Nat.mod_lt _ (Nat.two_pow_pos _)
  rw [rotAmt]
  split
  · next heq =>
    rw [Nat.mul_zero, Nat.zero_mod]
    -- there is one word in a beat, or no byte in a word
    rcases Nat.eq_zero_or_pos P.bytesPerWord with hzero | hpos
    · rw [hzero, Nat.mul_zero]
    · rw [Params.bytesPerBeat] at heq
      have hone : 2 ^ P.wordIdxBits = 1 :=
        Nat.eq_of_mul_eq_mul_right hpos (by rw [heq, Nat.one_mul])
      rw [hone] at hlt
      rw [Nat.lt_one_iff.mp hlt, Nat.zero_mul]
  · next hne =>
    have hpos : 0 < P.bytesPerWord := by
      refine Nat.pos_of_ne_zero fun hzero => hne ?_
      rw [Params.bytesPerBeat, hzero, Nat.mul_zero]
    have hbytes : wordIdx addr * P.bytesPerWord < P.bytesPerBeat :=
      Nat.mul_lt_mul_of_pos_right hlt hpos
    exact Nat.mod_eq_of_lt (hbytes.trans_le (Nat.le_pow_clog (by decide) _))

theorem place_eq (addr : Address P) (cnt : ℕ) (b : Fin P.bytesPerBeat) :
    place addr cnt b =
      burstAddr addr cnt * P.bytesPerBeat + Rotation.up (rotAmt P (wordIdx addr)) b := by
  rw [place, rotAmt_wordIdx, Nat.add_comm (wordIdx addr * P.bytesPerWord)]
  rfl

theorem place_injective (addr : Address P) (cnt : ℕ) : Function.Injective (place addr cnt) := by
  intro b b' h
  rw [place_eq, place_eq] at h
  exact up_injective _ (Fin.ext (Nat.add_left_cancel h))

/-- A byte is in a beat of its own. -/
theorem place_ne {addr : Address P} {cnt a : ℕ} (ha : a ≠ burstAddr addr cnt)
    (b c : Fin P.bytesPerBeat) : place addr cnt b ≠ a * P.bytesPerBeat + c := by
  intro h
  rw [place_eq] at h
  have hpos := c.pos
  have hdiv := congrArg (· / P.bytesPerBeat) h
  simp only [Nat.mul_comm _ P.bytesPerBeat, Nat.mul_add_div hpos, Nat.div_eq_of_lt (Fin.isLt _),
    Nat.add_zero] at hdiv
  exact ha hdiv.symm

section Foldl

variable {ι κ α : Type*} [DecidableEq κ] {f : ι → κ} {c : ι → Bool} {d : ι → α}

theorem foldl_update_of_ne {l : List ι} {mem : κ → α} {a : κ} (h : ∀ b, f b ≠ a) :
    l.foldl (fun mem b => if c b then mem else Function.update mem (f b) (d b)) mem a = mem a := by
  induction l generalizing mem with
  | nil => rfl
  | cons b l ih =>
    rw [List.foldl_cons, ih]
    split
    · rfl
    · exact Function.update_of_ne (h b).symm _ _

theorem foldl_update_apply (hf : Function.Injective f) [DecidableEq ι] {l : List ι} {mem : κ → α}
    (b : ι) :
    l.foldl (fun mem b => if c b then mem else Function.update mem (f b) (d b)) mem (f b) =
      if b ∈ l ∧ c b = false then d b else mem (f b) := by
  induction l generalizing mem with
  | nil => simp
  | cons x l ih =>
    rw [List.foldl_cons, ih]
    by_cases hx : b = x
    · subst hx
      cases hc : c b <;> simp
    · have hne : f b ≠ f x := fun h => hx (hf h)
      cases hc : c x <;> simp [hx, hne]

end Foldl

/-- **A write** changes the bytes of its beat that the mask does not keep. -/
theorem Flat.step_write_place (f : Flat P) (addr : Address P) (cnt : ℕ) (data : Beat P)
    (mask : Mask P) (b : Fin P.bytesPerBeat) :
    (f.step (.write addr cnt data mask)).mem (place addr cnt b) =
      if mask b then f.mem (place addr cnt b) else data b := by
  rw [Flat.step]
  refine (foldl_update_apply (place_injective addr cnt) b).trans ?_
  cases hm : mask b <;> simp

theorem Flat.step_write_of_ne (f : Flat P) {addr : Address P} {cnt : ℕ} (data : Beat P)
    (mask : Mask P) {a : ℕ} (h : ∀ b, place addr cnt b ≠ a) :
    (f.step (.write addr cnt data mask)).mem a = f.mem a :=
  foldl_update_of_ne h

theorem flat_concat (mem : ℕ → BitVec 8) (ops : List (Op P)) (op : Op P) :
    flat mem (ops ++ [op]) = (flat mem ops).step op := by
  rw [flat, List.foldl_append]
  rfl

/-- The block RAMs hold the bytes. -/
def Holds (memory : Fin P.bytesPerBeat → QueuedRam ℕ (BitVec 8)) (mem : ℕ → BitVec 8) : Prop :=
  ∀ b a, a < 2 ^ P.beatAddrBits → (memory b).contents a = mem (a * P.bytesPerBeat + b)

theorem burstAddr_lt (addr : Address P) (cnt : ℕ) : burstAddr addr cnt < 2 ^ P.beatAddrBits :=
  Nat.mod_lt _ (Nat.two_pow_pos _)

/-- What `doWrite` does to them is what the flat memory does. -/
theorem Holds.write {memory : Fin P.bytesPerBeat → QueuedRam ℕ (BitVec 8)} {f : Flat P}
    (h : Holds memory f.mem) (addr : Address P) (cnt : ℕ) (data : Beat P) (mask : Mask P) :
    Holds (fun b => if rotateBy mask (rotAmt P (wordIdx addr)) b then memory b
      else (memory b).write (burstAddr addr cnt) (rotateBy data (rotAmt P (wordIdx addr)) b))
      (f.step (.write addr cnt data mask)).mem := by
  intro c a ha
  by_cases hburst : a = burstAddr addr cnt
  · subst hburst
    obtain ⟨b, rfl⟩ : ∃ b, Rotation.up (rotAmt P (wordIdx addr)) b = c := ⟨_, up_up_sub _ c⟩
    have hplace := place_eq addr cnt b
    dsimp only
    rw [← hplace, Flat.step_write_place, rotateBy_up, rotateBy_up]
    cases hm : mask b with
    | true =>
      rw [if_pos rfl, if_pos rfl, hplace]
      exact h _ _ ha
    | false =>
      rw [if_neg (by decide), if_neg (by decide), QueuedRam.contents_write, Function.update_self]
  · rw [Flat.step_write_of_ne f data mask (fun b => place_ne hburst b c)]
    dsimp only
    split
    · exact h _ _ ha
    · rw [QueuedRam.contents_write, Function.update_of_ne hburst]
      exact h _ _ ha

/-- What is read of them, rotated, is the beat of the flat memory. -/
theorem Holds.read {memory : Fin P.bytesPerBeat → QueuedRam ℕ (BitVec 8)} {mem : ℕ → BitVec 8}
    (h : Holds memory mem) (addr : Address P) (cnt : ℕ) :
    reverse (rotateBy (reverse fun b => (memory b).contents (burstAddr addr cnt))
      (rotAmt P (wordIdx addr))) = fun b => mem (place addr cnt b) := by
  funext b
  rw [reverse_rotateBy_reverse, h _ _ (burstAddr_lt addr cnt), place_eq]

/-! ### The beats that are left -/

theorem beatsFrom_read {r : ℕ} (hr : r < P.burstLength) (w : ℕ) (addr : Address P)
    (commands : List (Request P)) (data : List (Beat P × Mask P)) :
    beatsFrom r w (.read addr :: commands) data =
      .read addr r :: (if r = P.burstIdxLast then beatsFrom 0 0 commands data
        else beatsFrom (r + 1) w (.read addr :: commands) data) := by
  rw [beatsFrom, show P.burstLength - r = P.burstLength - (r + 1) + 1 by omega, List.range'_succ,
    List.map_cons, List.cons_append]
  congr 1
  by_cases hlast : r = P.burstIdxLast
  · rw [if_pos hlast]
    rw [Params.burstIdxLast] at hlast
    rw [show P.burstLength - (r + 1) = 0 by omega]
    rfl
  · rw [if_neg hlast, beatsFrom]

theorem beatsFrom_write {w : ℕ} (hw : w < P.burstLength) (r : ℕ) (addr : Address P)
    (commands : List (Request P)) (data : Beat P) (mask : Mask P)
    (rest : List (Beat P × Mask P)) :
    beatsFrom r w (.write addr :: commands) ((data, mask) :: rest) =
      .write addr w data mask :: (if w = P.burstIdxLast then beatsFrom 0 0 commands rest
        else beatsFrom r (w + 1) (.write addr :: commands) rest) := by
  rw [beatsFrom, show P.burstLength - w = P.burstLength - (w + 1) + 1 by omega, List.take_succ_cons,
    List.zipIdx_cons, List.map_cons, List.cons_append, List.length_cons, List.drop_succ_cons]
  congr 1
  simp only [Nat.add_le_add_iff_right]
  by_cases hlast : w = P.burstIdxLast
  · rw [if_pos hlast]
    rw [Params.burstIdxLast] at hlast
    rw [show P.burstLength - (w + 1) = 0 by omega, if_pos (Nat.zero_le _)]
    rfl
  · rw [if_neg hlast, beatsFrom]

/-! ### Reads in flight -/

/-- Which of the beats in the queues are the last of their burst, the oldest first. -/
def Bank.lasts (s : Bank P) : List Bool := s.readRespQ.map Prod.snd ++ s.inflightReadQ.map Prod.snd

/-- The counters, and the beats that were asked for and not sent. -/
structure Reads (s : Bank P) : Prop where
  /-- A beat of a burst. -/
  readBurstCnt_lt : s.readBurstCnt < P.burstLength
  /-- A beat of a burst. -/
  writeBurstCnt_lt : s.writeBurstCnt < P.burstLength
  /-- A read is under way. -/
  reading : s.readBurstCnt ≠ 0 → ∃ addr commands, s.commandQ = .read addr :: commands
  /-- A write is under way. -/
  writing : s.writeBurstCnt ≠ 0 → ∃ addr commands, s.commandQ = .write addr :: commands
  /-- Reads are counted from the last request to the last beat sent. -/
  count : s.lasts.count true = s.nInflightReads
  /-- There are not more than allowed. -/
  inflight_le : s.nInflightReads ≤ P.maxOutstandingReads
  /-- A read is begun when there are less. -/
  inflight_lt : s.readBurstCnt ≠ 0 → s.nInflightReads < P.maxOutstandingReads
  /-- No burst is longer than it should be. -/
  bursts : ∀ l, l <:+ s.lasts → l.length ≤ P.burstLength * l.count true + s.readBurstCnt

namespace Reads

variable {s t : Bank P} {event : Event P}

/-- **What is outstanding** fits the buffer. -/
theorem outstanding_le (h : Reads s) :
    s.inflightReadQ.length + s.readRespQ.length ≤ P.burstLength * P.maxOutstandingReads := by
  have hall := h.bursts s.lasts (List.suffix_refl _)
  have hlength : s.lasts.length = s.readRespQ.length + s.inflightReadQ.length := by
    rw [Bank.lasts, List.length_append, List.length_map, List.length_map]
  have hlt := h.readBurstCnt_lt
  rw [hlength, h.count] at hall
  by_cases hzero : s.readBurstCnt = 0
  · have hle := Nat.mul_le_mul_left P.burstLength h.inflight_le
    omega
  · have hle := Nat.mul_le_mul_left P.burstLength (h.inflight_lt hzero)
    rw [Nat.mul_succ] at hle
    omega

theorem reset (mem : ℕ → BitVec 8) : Reads (.reset P mem) where
  readBurstCnt_lt := P.burstLength_pos
  writeBurstCnt_lt := P.burstLength_pos
  reading h := absurd rfl h
  writing h := absurd rfl h
  count := rfl
  inflight_le := Nat.zero_le _
  inflight_lt h := absurd rfl h
  bursts l hl := by
    rw [List.suffix_nil.mp hl]
    exact Nat.zero_le _

theorem command (h : Reads s) (request : Request P) :
    Reads { s with commandQ := s.commandQ ++ [request] } := by
  refine ⟨h.readBurstCnt_lt, h.writeBurstCnt_lt, fun hne => ?_, fun hne => ?_, h.count,
    h.inflight_le, h.inflight_lt, h.bursts⟩
  · obtain ⟨addr, commands, hq⟩ := h.reading hne
    exact ⟨addr, commands ++ [request], by rw [hq, List.cons_append]⟩
  · obtain ⟨addr, commands, hq⟩ := h.writing hne
    exact ⟨addr, commands ++ [request], by rw [hq, List.cons_append]⟩

/-- A read that is at the head of the queue is the only command under way. -/
theorem writeBurstCnt_eq (h : Reads s) {addr : Address P} {commands : List (Request P)}
    (hq : s.commandQ = .read addr :: commands) : s.writeBurstCnt = 0 := by
  by_contra hne
  obtain ⟨_, _, hq'⟩ := h.writing hne
  rw [hq] at hq'
  cases hq'

theorem readBurstCnt_eq (h : Reads s) {addr : Address P} {commands : List (Request P)}
    (hq : s.commandQ = .write addr :: commands) : s.readBurstCnt = 0 := by
  by_contra hne
  obtain ⟨_, _, hq'⟩ := h.reading hne
  rw [hq] at hq'
  cases hq'

theorem doWrite (h : Reads s) (ht : s.doWrite = some (t, event)) : Reads t := by
  rw [Bank.doWrite] at ht
  split at ht
  · next addr commands data mask rest hq hdata =>
    obtain ⟨rfl, rfl⟩ := Prod.mk.inj (Option.some.inj ht)
    have hread := h.readBurstCnt_eq hq
    have hlt := h.writeBurstCnt_lt
    refine ⟨h.readBurstCnt_lt, ?_, fun hne => absurd hread hne, fun hne => ?_, h.count,
      h.inflight_le, fun hne => absurd hread hne, h.bursts⟩
    · dsimp only
      split
      · exact P.burstLength_pos
      · next hlast =>
        rw [Params.burstIdxLast] at hlast
        omega
    · dsimp only at hne ⊢
      split at hne
      · exact absurd rfl hne
      · next hlast =>
        rw [if_neg hlast]
        exact ⟨addr, commands, hq⟩
  · cases ht

/-- One more beat is asked for. -/
theorem bursts_concat {l : List Bool} {r : ℕ} (last : Bool)
    (h : ∀ g, g <:+ l → g.length ≤ P.burstLength * g.count true + r) (hr : r < P.burstLength)
    (hlast : last = true → r = P.burstIdxLast) (g : List Bool) (hg : g <:+ l ++ [last]) :
    g.length ≤ P.burstLength * g.count true + if last then 0 else r + 1 := by
  rcases List.suffix_concat_iff.mp hg with rfl | ⟨g', rfl, hg'⟩
  · exact Nat.zero_le _
  · have hle := h g' hg'
    rw [List.length_append, List.length_singleton]
    cases last with
    | false =>
      have hcount : (g' ++ [false]).count true = g'.count true := by simp
      rw [if_neg (by decide), hcount]
      omega
    | true =>
      have hcount : (g' ++ [true]).count true = g'.count true + 1 := by simp
      have hr' := hlast rfl
      rw [Params.burstIdxLast] at hr'
      rw [if_pos rfl, hcount, Nat.mul_succ]
      omega

theorem doReadReq (h : Reads s) (ht : s.doReadReq = some (t, event)) : Reads t := by
  rw [Bank.doReadReq] at ht
  split at ht
  · next addr commands hq =>
    split at ht
    · next hguard =>
      obtain ⟨rfl, rfl⟩ := Prod.mk.inj (Option.some.inj ht)
      have hwrite := h.writeBurstCnt_eq hq
      have hlt := h.readBurstCnt_lt
      have hmax := hguard.1.2
      have hlasts : s.readRespQ.map Prod.snd ++
          (s.inflightReadQ ++ [(wordIdx addr, decide (s.readBurstCnt = P.burstIdxLast))]).map
            Prod.snd = s.lasts ++ [decide (s.readBurstCnt = P.burstIdxLast)] := by
        rw [List.map_append, ← List.append_assoc]
        rfl
      refine ⟨?_, h.writeBurstCnt_lt, fun hne => ?_, fun hne => absurd hwrite hne, ?_, ?_,
        fun hne => ?_, fun l hl => ?_⟩
      · dsimp only
        split
        · exact P.burstLength_pos
        · next hlast =>
          rw [Params.burstIdxLast] at hlast
          omega
      · dsimp only at hne ⊢
        split at hne
        · exact absurd rfl hne
        · next hlast =>
          rw [if_neg hlast]
          exact ⟨addr, commands, hq⟩
      · rw [Bank.lasts, hlasts, List.count_append, h.count]
        dsimp only
        split
        · next hlast =>
          rw [decide_eq_true hlast]
          rfl
        · next hlast =>
          rw [decide_eq_false hlast]
          rfl
      · dsimp only
        split <;> omega
      · dsimp only at hne ⊢
        split at hne
        · exact absurd rfl hne
        · next hlast =>
          rw [if_neg hlast]
          exact hmax
      · rw [Bank.lasts, hlasts] at hl
        have hle := bursts_concat (P := P) _ h.bursts hlt
          (fun hlast => of_decide_eq_true hlast) l hl
        dsimp only
        simpa only [decide_eq_true_eq] using hle
    · cases ht
  · cases ht

theorem doReadResp (h : Reads s) (ht : s.doReadResp = some (t, event)) : Reads t := by
  rw [Bank.doReadResp] at ht
  split at ht
  · cases ht
  · next word last inflightReadQ hq =>
    split at ht
    · obtain ⟨rfl, rfl⟩ := Prod.mk.inj (Option.some.inj ht)
      -- the beat goes from one queue to the other
      have hlasts : ∀ (data : Beat P), (s.readRespQ ++ [(data, last)]).map Prod.snd ++
          inflightReadQ.map Prod.snd = s.lasts := by
        intro data
        rw [Bank.lasts, hq, List.map_append, List.append_assoc]
        rfl
      refine ⟨h.readBurstCnt_lt, h.writeBurstCnt_lt, h.reading, h.writing, ?_, h.inflight_le,
        h.inflight_lt, fun l hl => ?_⟩
      · rw [Bank.lasts, hlasts]
        exact h.count
      · rw [Bank.lasts, hlasts] at hl
        exact h.bursts l hl
    · cases ht

theorem readRsp (h : Reads s) (ht : s.readRsp = some (t, event)) : Reads t := by
  rw [Bank.readRsp] at ht
  split at ht
  · cases ht
  · next data last readRespQ hq =>
    obtain ⟨rfl, rfl⟩ := Prod.mk.inj (Option.some.inj ht)
    have hlasts : s.lasts = last :: (readRespQ.map Prod.snd ++ s.inflightReadQ.map Prod.snd) := by
      rw [Bank.lasts, hq]
      rfl
    have hcount := h.count
    have hle := h.inflight_le
    rw [hlasts, List.count_cons] at hcount
    refine ⟨h.readBurstCnt_lt, h.writeBurstCnt_lt, h.reading, h.writing, ?_, ?_, fun hne => ?_,
      fun l hl => h.bursts l ?_⟩
    · rw [Bank.lasts]
      dsimp only
      cases last <;> simp at hcount ⊢ <;> omega
    · dsimp only
      split <;> omega
    · have hlt := h.inflight_lt hne
      dsimp only
      split <;> omega
    · rw [hlasts]
      exact hl.trans (List.suffix_cons _ _)

/-- Every rule keeps the counters. -/
theorem step (h : Reads s) {r : Rule P} (ht : rule r s = some (t, event)) : Reads t := by
  cases r with
  | command request =>
    obtain ⟨rfl, rfl⟩ := Prod.mk.inj (Option.some.inj ht)
    exact h.command request
  | writeData data mask =>
    obtain ⟨rfl, rfl⟩ := Prod.mk.inj (Option.some.inj ht)
    exact ⟨h.readBurstCnt_lt, h.writeBurstCnt_lt, h.reading, h.writing, h.count, h.inflight_le,
      h.inflight_lt, h.bursts⟩
  | doWrite => exact h.doWrite ht
  | setMaxReads m =>
    obtain ⟨rfl, rfl⟩ := Prod.mk.inj (Option.some.inj ht)
    exact ⟨h.readBurstCnt_lt, h.writeBurstCnt_lt, h.reading, h.writing, h.count, h.inflight_le,
      h.inflight_lt, h.bursts⟩
  | doReadReq => exact h.doReadReq ht
  | doReadResp => exact h.doReadResp ht
  | readRsp => exact h.readRsp ht

end Reads

/-! ### The bank and the flat memory -/

/-- The beats that were read and not sent, where `raws` wait in the block RAMs. -/
def Bank.unsent (s : Bank P) (raws : List (Beat P)) : List (Beat P) :=
  s.readRespQ.map Prod.fst ++ List.zipWith (fun q raw =>
    reverse (rotateBy (reverse raw) (rotAmt P q.1))) s.inflightReadQ raws

/-- What was done is what the flat memory does. -/
structure Serves (mem : ℕ → BitVec 8) (s : Banking P) : Prop where
  /-- The beats are those of the commands, whatever comes after them. -/
  ops : ∀ commands data, beatsOf (s.commands ++ commands) (s.data ++ data) =
    s.ops ++ beatsFrom s.bank.readBurstCnt s.bank.writeBurstCnt (s.bank.commandQ ++ commands)
      (s.bank.writeDataQ ++ data)
  /-- The block RAMs hold its bytes. -/
  holds : Holds s.bank.memory (flat mem s.ops).mem
  /-- What it returned was sent, or is on the way. -/
  beats : ∃ raws, raws.length = s.bank.inflightReadQ.length ∧
    (∀ b, (s.bank.memory b).pending = raws.map fun raw => raw b) ∧
    (flat mem s.ops).beats = s.sent ++ s.bank.unsent raws

namespace Serves

variable {mem : ℕ → BitVec 8} {s : Banking P} {t : Bank P} {event : Event P}

theorem reset (mem : ℕ → BitVec 8) : Serves (P := P) mem
    { bank := .reset P mem, commands := [], data := [], ops := [], sent := [] } where
  ops _ _ := rfl
  holds _ _ _ := rfl
  beats := ⟨[], rfl, fun _ => rfl, rfl⟩

theorem doWrite (h : Serves mem s) (hreads : Reads s.bank)
    (ht : s.bank.doWrite = some (t, event)) : Serves mem (s.record t event) := by
  rw [Bank.doWrite] at ht
  split at ht
  · next addr commands data mask rest hq hdata =>
    obtain ⟨rfl, rfl⟩ := Prod.mk.inj (Option.some.inj ht)
    have hread := hreads.readBurstCnt_eq hq
    refine ⟨fun commands' data' => ?_, ?_, ?_⟩
    · have hops := h.ops commands' data'
      rw [hq, hdata, List.cons_append, List.cons_append,
        beatsFrom_write hreads.writeBurstCnt_lt] at hops
      show beatsOf _ _ = (s.ops ++ [_]) ++ beatsFrom s.bank.readBurstCnt
        (if s.bank.writeBurstCnt = P.burstIdxLast then 0 else s.bank.writeBurstCnt + 1)
        ((if s.bank.writeBurstCnt = P.burstIdxLast then commands else s.bank.commandQ) ++ commands')
        (rest ++ data')
      refine hops.trans ?_
      rw [List.append_assoc, List.singleton_append]
      split
      · rw [hread]
      · rw [hq, List.cons_append]
    · show Holds _ (flat mem (s.ops ++ [_])).mem
      rw [flat_concat]
      exact h.holds.write addr s.bank.writeBurstCnt data mask
    · obtain ⟨raws, hlength, hpending, hbeats⟩ := h.beats
      refine ⟨raws, hlength, fun b => ?_, ?_⟩
      · rw [← hpending b]
        dsimp only [Banking.record]
        split <;> rfl
      · show (flat mem (s.ops ++ [_])).beats = _
        rw [flat_concat]
        exact hbeats
  · cases ht

theorem doReadReq (h : Serves mem s) (hreads : Reads s.bank)
    (ht : s.bank.doReadReq = some (t, event)) : Serves mem (s.record t event) := by
  rw [Bank.doReadReq] at ht
  split at ht
  · next addr commands hq =>
    split at ht
    · obtain ⟨rfl, rfl⟩ := Prod.mk.inj (Option.some.inj ht)
      have hwrite := hreads.writeBurstCnt_eq hq
      refine ⟨fun commands' data' => ?_, ?_, ?_⟩
      · have hops := h.ops commands' data'
        rw [hq, List.cons_append, beatsFrom_read hreads.readBurstCnt_lt] at hops
        show beatsOf _ _ = (s.ops ++ [_]) ++ beatsFrom
          (if s.bank.readBurstCnt = P.burstIdxLast then 0 else s.bank.readBurstCnt + 1)
          s.bank.writeBurstCnt
          ((if s.bank.readBurstCnt = P.burstIdxLast then commands else s.bank.commandQ) ++
            commands')
          (s.bank.writeDataQ ++ data')
        refine hops.trans ?_
        rw [List.append_assoc, List.singleton_append]
        split
        · rw [hwrite]
        · rw [hq, List.cons_append]
      · show Holds _ (flat mem (s.ops ++ [_])).mem
        rw [flat_concat]
        exact h.holds
      · obtain ⟨raws, hlength, hpending, hbeats⟩ := h.beats
        refine ⟨raws ++ [fun b => (s.bank.memory b).contents (burstAddr addr s.bank.readBurstCnt)],
          ?_, fun b => ?_, ?_⟩
        · show (raws ++ [_]).length = (s.bank.inflightReadQ ++ [_]).length
          rw [List.length_append, List.length_append, hlength]
          rfl
        · rw [List.map_append, ← hpending b]
          rfl
        · show (flat mem (s.ops ++ [_])).beats =
            s.sent ++ (_ ++ List.zipWith _ (_ ++ [_]) (_ ++ [_]))
          rw [flat_concat, List.zipWith_append hlength.symm, ← List.append_assoc,
            ← List.append_assoc,
            List.append_assoc s.sent]
          show (flat mem s.ops).beats ++ [_] = s.sent ++ s.bank.unsent raws ++ [_]
          rw [← hbeats]
          exact congrArg (fun beat => (flat mem s.ops).beats ++ [beat]) (h.holds.read addr _).symm
    · cases ht
  · cases ht

theorem doReadResp (h : Serves mem s) (ht : s.bank.doReadResp = some (t, event)) :
    Serves mem (s.record t event) := by
  rw [Bank.doReadResp] at ht
  split at ht
  · cases ht
  · next word last rest hq =>
    split at ht
    · next hguard =>
      obtain ⟨rfl, rfl⟩ := Prod.mk.inj (Option.some.inj ht)
      obtain ⟨raws, hlength, hpending, hbeats⟩ := h.beats
      rw [hq] at hlength
      refine ⟨h.ops, h.holds, ?_⟩
      cases raws with
      | nil => cases hlength
      | cons raw raws =>
        have hhead : (fun b => (s.bank.memory b).pending.head (hguard.1 b)) = raw := by
          funext b
          simp only [hpending b, List.map_cons, List.head_cons]
        refine ⟨raws, Nat.succ.inj hlength, fun b => ?_, ?_⟩
        · show (s.bank.memory b).pending.tail = _
          rw [hpending b, List.map_cons, List.tail_cons]
        · show (flat mem s.ops).beats =
            s.sent ++ ((_ ++ [_]).map Prod.fst ++ List.zipWith _ rest raws)
          rw [hhead, hbeats, Bank.unsent, hq, List.zipWith_cons_cons, List.map_append,
            List.append_assoc]
          rfl
    · cases ht

theorem readRsp (h : Serves mem s) (ht : s.bank.readRsp = some (t, event)) :
    Serves mem (s.record t event) := by
  rw [Bank.readRsp] at ht
  split at ht
  · cases ht
  · next data last rest hq =>
    obtain ⟨rfl, rfl⟩ := Prod.mk.inj (Option.some.inj ht)
    obtain ⟨raws, hlength, hpending, hbeats⟩ := h.beats
    refine ⟨h.ops, h.holds, raws, hlength, hpending, ?_⟩
    rw [Bank.unsent, hq] at hbeats
    show (flat mem s.ops).beats = s.sent ++ [data] ++ _
    rw [hbeats, List.append_assoc]
    rfl

/-- Every rule does what the flat memory does. -/
theorem step (h : Serves mem s) (hreads : Reads s.bank) {r : Rule P}
    (ht : rule r s.bank = some (t, event)) : Serves mem (s.record t event) := by
  cases r with
  | command request =>
    obtain ⟨rfl, rfl⟩ := Prod.mk.inj (Option.some.inj ht)
    refine ⟨fun commands data => ?_, h.holds, h.beats⟩
    have hops := h.ops (request :: commands) data
    rw [← List.singleton_append, ← List.append_assoc, ← List.append_assoc] at hops
    exact hops
  | writeData data mask =>
    obtain ⟨rfl, rfl⟩ := Prod.mk.inj (Option.some.inj ht)
    refine ⟨fun commands data' => ?_, h.holds, h.beats⟩
    have hops := h.ops commands ((data, mask) :: data')
    rw [← List.singleton_append, ← List.append_assoc, ← List.append_assoc] at hops
    exact hops
  | doWrite => exact h.doWrite hreads ht
  | setMaxReads m =>
    obtain ⟨rfl, rfl⟩ := Prod.mk.inj (Option.some.inj ht)
    exact ⟨h.ops, h.holds, h.beats⟩
  | doReadReq => exact h.doReadReq hreads ht
  | doReadResp => exact h.doReadResp ht
  | readRsp => exact h.readRsp ht

end Serves

theorem reads_record (s : Banking P) (t : Bank P) (event : Event P) :
    (s.record t event).bank = t := by
  cases event <;> rfl

theorem serves_of_reachable {mem : ℕ → BitVec 8} {s : Banking P}
    (h : (banking P mem).Reachable s) : Reads s.bank ∧ Serves mem s := by
  refine h.invariant (P := fun s => Reads s.bank ∧ Serves mem s) ?_ ?_
  · rintro s rfl
    exact ⟨.reset mem, .reset mem⟩
  · rintro s t ⟨hreads, hserves⟩ ⟨r, ht⟩
    obtain ⟨⟨bank, event⟩, hrule, rfl⟩ := Option.map_eq_some_iff.mp ht
    refine ⟨?_, hserves.step hreads hrule⟩
    dsimp only
    rw [reads_record]
    exact hreads.step hrule

/-- A bank that is a memory. -/
structure IsMemory (mem : ℕ → BitVec 8) (s : Banking P) : Prop where
  /-- The commands are served beat by beat, in their order. -/
  ops_isPrefix : s.ops <+: beatsOf s.commands s.data
  /-- What is sent is what the flat memory returns, in its order. -/
  sent_isPrefix : s.sent <+: (flat mem s.ops).beats
  /-- When no command waits and no beat is on the way, everything was sent. -/
  complete : s.bank.commandQ = [] → s.bank.inflightReadQ = [] → s.bank.readRespQ = [] →
    s.sent = (flat mem (beatsOf s.commands s.data)).beats
  /-- The bytes are those of the flat memory. -/
  holds : Holds s.bank.memory (flat mem s.ops).mem
  /-- What is outstanding fits the buffer. -/
  outstanding_le : s.bank.inflightReadQ.length + s.bank.readRespQ.length ≤
    P.burstLength * P.maxOutstandingReads
  /-- Without a latency there is room for what the block RAMs return. -/
  room : P.readLatency = 0 → s.bank.inflightReadQ ≠ [] →
    s.bank.readRespQ.length < P.readRespDepth

end BramBank

end Dram

end LeapPlatforms
