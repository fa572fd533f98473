import LeapPlatforms.Foundation.TransitionSystem
import LeapPlatforms.Umf.Message

/-!
# The channel table of the UNIX pipe

All channels of the simulated board read one pipe. Each has a slot in a table, with a buffer for a
part of a chunk; the free slots are a circular list through the table. A read that does not complete
a chunk leaves what it got in the buffer of its channel.

## Main definitions

* `Channel`, `PipeDevice`, `pipeInit`, `pipeOpen`, `pipeRead`
* `PipeRun`, `pipeRuns` — calls, with what they returned
* `PipeRun.Faithful`, `PipeRun.Careful` — what is said of them, and when it holds

## Main results

* `pipe_faithful`
* `pipe_unfaithful` — a chunk torn between two channels
-/

namespace LeapPlatforms

namespace UnixPipe

open Bytes Umf

variable {P : Params}

/-! ### The table -/

/-- `MAX_OPEN_CHANNELS`. -/
def maxOpenChannels : ℕ := 32

variable (P) in
/-- A slot of the table; links are indices. -/
structure Channel where
  /-- `open`. -/
  isOpen : Bool := false
  tableIndex : ℕ := 0
  inputBuffer : List Byte := List.replicate P.chunkBytes 0
  ibHead : ℕ := 0
  ibTail : ℕ := 0
  prev : ℕ := 0
  next : ℕ := 0

variable (P) in
/-- The global variables. -/
structure PipeDevice where
  /-- `OCHT`. -/
  ocht : ℕ → Channel P
  freeList : Option ℕ
  /-- `DESC_HOST_2_FPGA` is a descriptor. -/
  descHost2Fpga : Bool

/-- Change a slot. -/
def modify (t : ℕ → Channel P) (i : ℕ) (f : Channel P → Channel P) : ℕ → Channel P :=
  Function.update t i (f (t i))

/-- The table with the free list through all slots. -/
def initTable : ℕ → Channel P :=
  let t := modify (fun _ => {}) 0 fun c => { c with prev := maxOpenChannels - 1, next := 1 }
  let t := (List.range' 1 (maxOpenChannels - 2)).foldl (fun t i =>
    modify t i fun c => { c with tableIndex := i, prev := i - 1, next := i + 1 }) t
  modify t (maxOpenChannels - 1) fun c => { c with prev := maxOpenChannels - 2, next := 0 }

/-- `pipe_init`; the pipe may not be there yet. -/
def pipeInit (opened : Bool) : PipeDevice P := ⟨initTable, some 0, opened⟩

/-- `pipe_open`: a handle, unless the process ends. -/
def pipeOpen (s : PipeDevice P) : Option (PipeDevice P × ℕ) :=
  match s.freeList with
  | none => none
  | some i =>
    if (s.ocht i).next = i ∧ (s.ocht i).prev ≠ i ∨ (s.ocht i).isOpen then none
    else
      let unlinked : (ℕ → Channel P) × Option ℕ :=
        if (s.ocht i).next = i then (s.ocht, none)
        else
          let t := modify s.ocht (s.ocht i).prev fun c => { c with next := (s.ocht i).next }
          let t := modify t (t i).next fun c => { c with prev := (t i).prev }
          (t, some (t i).next)
      let t := modify unlinked.1 i fun c => { c with isOpen := true, ibHead := 0, ibTail := 0 }
      some ({ s with ocht := t, freeList := unlinked.2 }, (t i).tableIndex % 256)

/-- What `read` gives. -/
inductive ReadResult
  | error
  /-- The host has closed the pipe. -/
  | eof
  | bytes (l : List Byte)
  deriving DecidableEq

/-- What `select` gives. -/
inductive SelectResult
  | error
  | interrupted
  | timeout
  | ready (r : ReadResult)
  deriving DecidableEq

/-- What the operating system does in a call. -/
structure OsAnswer where
  /-- The pipe can be opened. -/
  opens : Bool
  select : SelectResult

/-- The bytes that are read. -/
def SelectResult.data : SelectResult → List Byte
  | .ready (.bytes l) => l
  | _ => []

/-- The process goes on. -/
def SelectResult.continues : SelectResult → Bool
  | .error => false
  | .ready .error => false
  | .ready .eof => false
  | _ => true

/-- Take a chunk that is complete. -/
def Channel.take (c : Channel P) : Channel P × Option (List Byte) :=
  if P.chunkBytes ≤ c.ibTail - c.ibHead then
    let head := c.ibHead + P.chunkBytes
    (if head = c.ibTail then { c with ibHead := 0, ibTail := 0 } else { c with ibHead := head },
      some ((c.inputBuffer.drop c.ibHead).take P.chunkBytes))
  else (c, none)

/-- Bytes come to the buffer. -/
def Channel.fill (c : Channel P) (l : List Byte) : Channel P :=
  { c with inputBuffer := overwrite c.inputBuffer c.ibTail l, ibTail := c.ibTail + l.length }

/-- `pipe_read`: a chunk or `PIPE_NULL`, unless the process ends. -/
def pipeRead (s : PipeDevice P) (handle : ℕ) (os : OsAnswer) :
    Option (PipeDevice P × Option (List Byte)) :=
  if s.descHost2Fpga = false ∧ os.opens = false then some (s, none)
  else if maxOpenChannels ≤ handle ∨ (s.ocht handle).isOpen = false then none
  else
    let s := { s with descHost2Fpga := true }
    let c := s.ocht handle
    if c.ibTail < P.chunkBytes ∧ os.select.continues = false then none
    else
      let c := if c.ibTail < P.chunkBytes then c.fill os.select.data else c
      some ({ s with ocht := Function.update s.ocht handle c.take.1 }, c.take.2)

/-! ### Calls -/

variable (P) in
/-- The device, the slots that were taken with the handles that were returned, what was read from
the pipe, and the chunks that were returned. -/
structure PipeRun where
  device : PipeDevice P
  opened : List (ℕ × ℕ) := []
  stream : List Byte := []
  chunks : List (List Byte) := []

inductive PipeCall
  | open
  | read (handle : ℕ) (os : OsAnswer)

namespace PipeRun

variable (s : PipeRun P)

/-- What a call takes from the pipe. -/
def received (handle : ℕ) (os : OsAnswer) : List Byte :=
  if s.device.descHost2Fpga = false ∧ os.opens = false then []
  else if (s.device.ocht handle).ibTail < P.chunkBytes then os.select.data
  else []

/-- A call that returns. -/
def call : PipeCall → Option (PipeRun P)
  | .open => (pipeOpen s.device).map fun x =>
    { s with device := x.1, opened := s.opened ++ [(s.device.freeList.getD 0, x.2)] }
  | .read handle os => (pipeRead s.device handle os).map fun x =>
    { s with
      device := x.1, stream := s.stream ++ s.received handle os, chunks := s.chunks ++ x.2.toList }

/-- A read is one of a handle that was returned, and gets a byte or more when it gets any. -/
def Allows : PipeCall → Prop
  | .open => s.opened.length < maxOpenChannels
  | .read handle os => handle ∈ s.opened.map Prod.snd ∧ os.select.continues = true ∧
    os.select ≠ .ready (.bytes []) ∧
      os.select.data.length ≤ P.chunkBytes - (s.device.ocht handle).ibTail

/-- What is said of the calls. -/
structure Faithful : Prop where
  nodup : (s.opened.map Prod.snd).Nodup
  index : ∀ x ∈ s.opened, x.2 = x.1
  /-- The chunks are what was read, cut into pieces; what is left is less than a chunk. -/
  cut : ∃ rest, s.chunks.flatten ++ rest = s.stream ∧ rest.length < P.chunkBytes
  size : ∀ chunk ∈ s.chunks, chunk.length = P.chunkBytes

/-- The last slot is not taken, and nothing is read for a channel while another holds a part of a
chunk. -/
def Careful : PipeCall → Prop
  | .open => s.device.freeList ≠ some (maxOpenChannels - 1)
  | .read handle os => s.received handle os ≠ [] → ∀ i < maxOpenChannels, i ≠ handle →
    (s.device.ocht i).ibTail = (s.device.ocht i).ibHead

instance : ∀ c, Decidable (s.Allows c)
  | .open => inferInstanceAs (Decidable (_ < _))
  | .read _ _ => inferInstanceAs (Decidable (_ ∧ _))

instance : ∀ c, Decidable (s.Careful c)
  | .open => inferInstanceAs (Decidable (_ ≠ _))
  | .read _ _ => inferInstanceAs (Decidable (_ → _))

end PipeRun

/-- The runs of calls that meet a condition. -/
def pipeRuns (C : PipeRun P → PipeCall → Prop) : TransitionSystem (PipeRun P) where
  init s := ∃ opened, s = ⟨pipeInit opened, [], [], []⟩
  step s t := ∃ c, s.Allows c ∧ C s c ∧ s.call c = some t

/-! ### The free list -/

theorem modify_apply (t : ℕ → Channel P) (i : ℕ) (f : Channel P → Channel P) (j : ℕ) :
    modify t i f j = if j = i then f (t j) else t j := by
  rw [modify]
  by_cases h : j = i
  · subst h
    rw [Function.update_self, if_pos rfl]
  · rw [Function.update_of_ne h, if_neg h]

theorem foldl_modify (f : ℕ → Channel P → Channel P) (l : List ℕ) (hl : l.Nodup)
    (t : ℕ → Channel P) (j : ℕ) :
    l.foldl (fun t i => modify t i (f i)) t j = if j ∈ l then f j (t j) else t j := by
  induction l generalizing t with
  | nil => simp
  | cons i l ih =>
    obtain ⟨hi, hl⟩ := List.nodup_cons.mp hl
    rw [List.foldl_cons, ih hl, modify_apply]
    by_cases hj : j = i
    · subst hj
      simp [hi]
    · simp [hj]

/-- The slots from `k` on are a circular list. -/
structure Listed (t : ℕ → Channel P) (k : ℕ) : Prop where
  index : ∀ i < maxOpenChannels - 1, (t i).tableIndex = i
  /-- The index of the last slot is not set. -/
  last : (t (maxOpenChannels - 1)).tableIndex = 0
  opened : ∀ i < k, (t i).isOpen = true
  free : ∀ i, k ≤ i → i < maxOpenChannels → (t i).isOpen = false
  next : ∀ i, k ≤ i → i < maxOpenChannels →
    (t i).next = if i = maxOpenChannels - 1 then k else i + 1
  prev : ∀ i, k ≤ i → i < maxOpenChannels →
    (t i).prev = if i = k then maxOpenChannels - 1 else i - 1

theorem initTable_apply (i : ℕ) (hi : i < maxOpenChannels) : (initTable i : Channel P) =
    { tableIndex := if i = maxOpenChannels - 1 then 0 else i
      prev := if i = 0 then maxOpenChannels - 1 else i - 1
      next := if i = maxOpenChannels - 1 then 0 else i + 1 } := by
  rw [initTable, modify_apply, foldl_modify _ _ List.nodup_range', modify_apply]
  simp only [maxOpenChannels, List.mem_range'_1] at *
  by_cases h0 : i = 0
  · simp [h0]
  by_cases h31 : i = 31
  · simp [h31]
  have hmid : 1 ≤ i ∧ i < 1 + (32 - 2) := by omega
  simp [h0, h31, hmid]

theorem listed_init : Listed (initTable : ℕ → Channel P) 0 := by
  have happly := initTable_apply (P := P)
  refine ⟨fun i hi => ?_, ?_, fun i hi => absurd hi (Nat.not_lt_zero i), fun i _ hi => ?_,
    fun i _ hi => ?_, fun i _ hi => ?_⟩
  · rw [happly i (by omega)]
    exact if_neg (by omega)
  · rw [happly _ (by decide)]
    rfl
  · rw [happly i hi]
  · rw [happly i hi]
  · rw [happly i hi]

/-- The table when the first free slot `k` has been taken. -/
def openedTable (t : ℕ → Channel P) (k : ℕ) : ℕ → Channel P := fun i =>
  { t i with
    isOpen := if i = k then true else (t i).isOpen
    ibHead := if i = k then 0 else (t i).ibHead
    ibTail := if i = k then 0 else (t i).ibTail
    prev := if i = k + 1 then maxOpenChannels - 1 else (t i).prev
    next := if i = maxOpenChannels - 1 then k + 1 else (t i).next }

/-- **Opening.** A slot other than the last is taken, and its index is the handle. -/
theorem pipeOpen_eq {s : PipeDevice P} {k : ℕ} (hlisted : Listed s.ocht k)
    (hfree : s.freeList = some k) (hk : k + 1 < maxOpenChannels) :
    pipeOpen s = some ({ s with ocht := openedTable s.ocht k, freeList := some (k + 1) }, k) := by
  have hnext := hlisted.next k le_rfl (by omega)
  have hprev := hlisted.prev k le_rfl (by omega)
  have hopen := hlisted.free k le_rfl (by omega)
  have hindex := hlisted.index k (by omega)
  rw [if_neg (by omega)] at hnext
  rw [if_pos rfl] at hprev
  have hlast : k ≠ maxOpenChannels - 1 := by omega
  have hsucc : k ≠ k + 1 := by omega
  have hguard : ¬ ((s.ocht k).next = k ∧ (s.ocht k).prev ≠ k ∨ (s.ocht k).isOpen = true) := by
    rw [hnext, hopen]
    rintro (h | h)
    · exact hsucc h.1.symm
    · exact Bool.false_ne_true h
  have hlink : ¬ (s.ocht k).next = k := by
    rw [hnext]
    exact hsucc.symm
  rw [pipeOpen, hfree]
  dsimp only
  rw [if_neg hguard, if_neg hlink]
  simp only [modify_apply, hnext, hprev, if_neg hlast, if_neg hsucc]
  have hmod : (s.ocht k).tableIndex % 256 = k := by
    rw [hindex]
    exact Nat.mod_eq_of_lt (by rw [maxOpenChannels] at hk; omega)
  have htable : modify (modify (modify s.ocht (maxOpenChannels - 1)
      fun c => { c with next := k + 1 }) (k + 1) fun c => { c with prev := maxOpenChannels - 1 }) k
      (fun c => { c with isOpen := true, ibHead := 0, ibTail := 0 }) = openedTable s.ocht k := by
    funext i
    simp only [modify_apply, openedTable]
    split_ifs <;> rfl
  rw [htable]
  simp only [if_true, hmod]

theorem Listed.openedTable {t : ℕ → Channel P} {k : ℕ} (h : Listed t k) :
    Listed (openedTable t k) (k + 1) where
  index i hi := h.index i hi
  last := h.last
  opened i hi := by
    change (if i = k then true else (t i).isOpen) = true
    split_ifs with hik
    · rfl
    · exact h.opened i (by omega)
  free i hi hlt := by
    change (if i = k then true else (t i).isOpen) = false
    rw [if_neg (by omega)]
    exact h.free i (by omega) hlt
  next i hi hlt := by
    change (if i = maxOpenChannels - 1 then k + 1 else (t i).next) = _
    split_ifs with hlast
    · rfl
    · rw [h.next i (by omega) hlt, if_neg hlast]
  prev i hi hlt := by
    change (if i = k + 1 then maxOpenChannels - 1 else (t i).prev) = _
    split_ifs with hik
    · rfl
    · rw [h.prev i (by omega) hlt, if_neg (by omega)]

/-- The last slot is taken as any other, but the handle is that of the first. -/
theorem pipeOpen_last {s : PipeDevice P} (hlisted : Listed s.ocht (maxOpenChannels - 1))
    (hfree : s.freeList = some (maxOpenChannels - 1)) :
    (pipeOpen s).map Prod.snd = some 0 := by
  have hnext := hlisted.next _ le_rfl (by decide)
  have hprev := hlisted.prev _ le_rfl (by decide)
  have hopen := hlisted.free _ le_rfl (by decide)
  rw [if_pos rfl] at hnext hprev
  have hguard : ¬ ((s.ocht (maxOpenChannels - 1)).next = maxOpenChannels - 1 ∧
      (s.ocht (maxOpenChannels - 1)).prev ≠ maxOpenChannels - 1 ∨
        (s.ocht (maxOpenChannels - 1)).isOpen = true) := by
    rw [hprev, hopen]
    rintro (h | h)
    · exact h.2 rfl
    · exact Bool.false_ne_true h
  rw [pipeOpen, hfree]
  dsimp only
  rw [if_neg hguard, if_pos hnext, Option.map_some, modify_apply, if_pos rfl, hlisted.last]

/-! ### The buffer of a channel -/

/-- A part of a chunk, from the start of the buffer on. -/
structure Channel.Tidy (c : Channel P) : Prop where
  head : c.ibHead = 0
  tail : c.ibTail < P.chunkBytes
  size : c.inputBuffer.length = P.chunkBytes

/-- What a channel holds. -/
def Channel.held (c : Channel P) : List Byte := c.inputBuffer.take c.ibTail

theorem Channel.held_eq_nil {c : Channel P} (h : c.ibTail = 0) : c.held = [] := by
  rw [held, h, List.take_zero]

/-- **Filling.** A chunk that is returned and what is held then are what was held and what came. -/
theorem Channel.Tidy.fill_take {c : Channel P} (h : c.Tidy) {l : List Byte}
    (hl : l.length ≤ P.chunkBytes - c.ibTail) :
    (c.fill l).take.1.Tidy ∧
      (c.fill l).take.2.toList.flatten ++ (c.fill l).take.1.held = c.held ++ l ∧
      ∀ chunk ∈ (c.fill l).take.2.toList, chunk.length = P.chunkBytes := by
  have htail := h.tail
  have hle : c.ibTail + l.length ≤ c.inputBuffer.length := by
    rw [h.size]
    omega
  have hsize : (overwrite c.inputBuffer c.ibTail l).length = P.chunkBytes :=
    (length_overwrite hle).trans h.size
  have hheld : (overwrite c.inputBuffer c.ibTail l).take (c.ibTail + l.length) = c.held ++ l :=
    take_overwrite (by omega)
  rw [Channel.take]
  simp only [Channel.fill, h.head, Nat.sub_zero, Nat.zero_add, List.drop_zero]
  by_cases hfull : P.chunkBytes ≤ c.ibTail + l.length
  · have heq : P.chunkBytes = c.ibTail + l.length := by omega
    rw [if_pos hfull, if_pos heq]
    refine ⟨⟨rfl, Nat.zero_lt_of_lt htail, hsize⟩, ?_, fun chunk hchunk => ?_⟩
    · rw [held, List.take_zero, List.append_nil, Option.toList_some, List.flatten_singleton, ← hheld,
        ← heq]
    · obtain rfl := List.mem_singleton.mp hchunk
      rw [List.length_take, hsize, Nat.min_self]
  · rw [if_neg hfull]
    exact ⟨⟨rfl, Nat.not_le.mp hfull, hsize⟩, hheld, fun chunk hchunk => absurd hchunk (by simp)⟩

theorem Channel.Tidy.fill_nil {c : Channel P} (h : c.Tidy) : (c.fill []).take = (c, none) := by
  have hfill : c.fill [] = c := by
    rw [Channel.fill, overwrite, List.append_nil, List.length_nil, Nat.add_zero, List.take_append_drop]
  rw [hfill, Channel.take, h.head, Nat.sub_zero, if_neg (Nat.not_le.mpr h.tail)]

/-- What stays of a channel that is read. -/
theorem Channel.take_links (c : Channel P) : c.take.1.isOpen = c.isOpen ∧
    c.take.1.tableIndex = c.tableIndex ∧ c.take.1.prev = c.prev ∧ c.take.1.next = c.next := by
  rw [Channel.take]
  dsimp only
  split_ifs <;> exact ⟨rfl, rfl, rfl, rfl⟩

theorem Listed.update {t : ℕ → Channel P} {k i : ℕ} (h : Listed t k) {c : Channel P}
    (hc : c.isOpen = (t i).isOpen ∧ c.tableIndex = (t i).tableIndex ∧ c.prev = (t i).prev ∧
      c.next = (t i).next) : Listed (Function.update t i c) k := by
  have hsame : ∀ j, (Function.update t i c j).isOpen = (t j).isOpen ∧
      (Function.update t i c j).tableIndex = (t j).tableIndex ∧
      (Function.update t i c j).prev = (t j).prev ∧
      (Function.update t i c j).next = (t j).next := by
    intro j
    by_cases hj : j = i
    · subst hj
      rwa [Function.update_self]
    · rw [Function.update_of_ne hj]
      exact ⟨rfl, rfl, rfl, rfl⟩
  exact
    { index := fun j hj => (hsame j).2.1.trans (h.index j hj)
      last := (hsame _).2.1.trans h.last
      opened := fun j hj => (hsame j).1.trans (h.opened j hj)
      free := fun j hj hlt => (hsame j).1.trans (h.free j hj hlt)
      next := fun j hj hlt => (hsame j).2.2.2.trans (h.next j hj hlt)
      prev := fun j hj hlt => (hsame j).2.2.1.trans (h.prev j hj hlt) }

/-! ### Runs -/

namespace PipeRun

/-- `k` slots are taken, and one channel at most holds a part of a chunk: what was read and is not
returned. -/
structure Kept (s : PipeRun P) (k : ℕ) : Prop where
  lt : k < maxOpenChannels
  listed : Listed s.device.ocht k
  freeList : s.device.freeList = some k
  opened : s.opened = (List.range k).map fun i => (i, i)
  tidy : ∀ i < maxOpenChannels, (s.device.ocht i).Tidy
  free : ∀ i, k ≤ i → i < maxOpenChannels → (s.device.ocht i).ibTail = 0
  holder : ∃ c < maxOpenChannels, (∀ i < maxOpenChannels, i ≠ c → (s.device.ocht i).ibTail = 0) ∧
    s.chunks.flatten ++ (s.device.ocht c).held = s.stream
  size : ∀ chunk ∈ s.chunks, chunk.length = P.chunkBytes

variable {s t : PipeRun P} {k : ℕ}

theorem kept_init (opened : Bool) : Kept (P := P) ⟨pipeInit opened, [], [], []⟩ 0 where
  lt := by decide
  listed := listed_init
  freeList := rfl
  opened := rfl
  tidy i hi := by
    change (initTable i).Tidy
    rw [initTable_apply i hi]
    exact ⟨rfl, Message.chunkBytes_pos, List.length_replicate⟩
  free i _ hi := by
    change (initTable i).ibTail = 0
    rw [initTable_apply i hi]
  holder := by
    refine ⟨0, by decide, fun i hi _ => ?_, ?_⟩
    · change (initTable i).ibTail = 0
      rw [initTable_apply i hi]
    · refine Channel.held_eq_nil ?_
      change (initTable 0).ibTail = 0
      rw [initTable_apply 0 (by decide)]
  size chunk hchunk := absurd hchunk List.not_mem_nil

theorem Kept.mem_opened (h : s.Kept k) {x : ℕ × ℕ} (hx : x ∈ s.opened) : x.1 < k ∧ x.2 = x.1 := by
  rw [h.opened] at hx
  obtain ⟨i, hi, rfl⟩ := List.mem_map.mp hx
  exact ⟨List.mem_range.mp hi, rfl⟩

theorem Kept.faithful (h : s.Kept k) : s.Faithful where
  nodup := by
    rw [h.opened, List.map_map]
    exact List.nodup_range.map Function.injective_id
  index x hx := (h.mem_opened hx).2
  cut := by
    obtain ⟨c, hc, -, hstream⟩ := h.holder
    have htail := (h.tidy c hc).tail
    refine ⟨_, hstream, ?_⟩
    rw [Channel.held, List.length_take]
    omega
  size := h.size

theorem Kept.open (h : s.Kept k) (hcareful : s.Careful .open) :
    ∃ t, s.call .open = some t ∧ t.Kept (k + 1) := by
  have hlt := h.lt
  have hlast : k ≠ maxOpenChannels - 1 := by
    intro hk
    refine hcareful ?_
    rw [h.freeList, hk]
  have hk : k + 1 < maxOpenChannels := by omega
  refine ⟨_, by rw [call, pipeOpen_eq h.listed h.freeList hk, Option.map_some], ?_⟩
  have htail : ∀ i < maxOpenChannels,
      (openedTable s.device.ocht k i).ibTail = (s.device.ocht i).ibTail := by
    intro i hi
    change (if i = k then 0 else (s.device.ocht i).ibTail) = _
    split_ifs with hik
    · rw [hik, h.free k le_rfl hlt]
    · rfl
  exact
    { lt := hk
      listed := h.listed.openedTable
      freeList := rfl
      opened := by
        change s.opened ++ [(s.device.freeList.getD 0, k)] = _
        rw [h.freeList, h.opened, List.range_succ, List.map_append]
        rfl
      tidy := fun i hi => by
        have htidy := h.tidy i hi
        refine ⟨?_, (htail i hi).symm ▸ htidy.tail, htidy.size⟩
        change (if i = k then 0 else (s.device.ocht i).ibHead) = 0
        rw [htidy.head, ite_self]
      free := fun i hi hlt => (htail i hlt).trans (h.free i (by omega) hlt)
      holder := by
        obtain ⟨c, hc, hother, hstream⟩ := h.holder
        refine ⟨c, hc, fun i hi hic => (htail i hi).trans (hother i hi hic), ?_⟩
        rw [← hstream, Channel.held, Channel.held, htail c hc]
        rfl
      size := h.size }

/-- A channel may be taken for the one that holds a part of a chunk when no other does. -/
theorem Kept.holder_of (h : s.Kept k) {i : ℕ} (hi : i < maxOpenChannels)
    (hother : ∀ j < maxOpenChannels, j ≠ i → (s.device.ocht j).ibTail = 0) :
    s.chunks.flatten ++ (s.device.ocht i).held = s.stream := by
  obtain ⟨c, hc, hcother, hstream⟩ := h.holder
  by_cases hic : i = c
  · rwa [hic]
  · rw [← hstream, Channel.held_eq_nil (hcother i hi hic),
      Channel.held_eq_nil (hother c hc (Ne.symm hic))]

theorem Kept.read (h : s.Kept k) {handle : ℕ} {os : OsAnswer}
    (hallows : s.Allows (.read handle os)) (hcareful : s.Careful (.read handle os)) :
    ∃ t, s.call (.read handle os) = some t ∧ t.Kept k := by
  obtain ⟨hmem, hcontinues, -, hlen⟩ := hallows
  have hk := h.lt
  have hhandle : handle < k := by
    obtain ⟨x, hx, rfl⟩ := List.mem_map.mp hmem
    rw [(h.mem_opened hx).2]
    exact (h.mem_opened hx).1
  have hlt : handle < maxOpenChannels := hhandle.trans hk
  have htidy := h.tidy handle hlt
  rw [call, pipeRead]
  by_cases hclosed : s.device.descHost2Fpga = false ∧ os.opens = false
  · rw [if_pos hclosed]
    refine ⟨s, ?_, h⟩
    rw [received, if_pos hclosed, Option.map_some, List.append_nil, Option.toList_none,
      List.append_nil]
  · have hguard : ¬ (maxOpenChannels ≤ handle ∨ (s.device.ocht handle).isOpen = false) := by
      rw [h.listed.opened handle hhandle]
      rintro (hle | hfalse)
      · exact Nat.not_lt.mpr hle hlt
      · exact Bool.false_ne_true hfalse.symm
    have hexit : ¬ ((s.device.ocht handle).ibTail < P.chunkBytes ∧ os.select.continues = false) := by
      rw [hcontinues]
      exact fun hfalse => absurd hfalse.2 (by decide)
    have hreceived : s.received handle os = os.select.data := by
      rw [received, if_neg hclosed, if_pos htidy.tail]
    rw [if_neg hclosed, if_neg hguard]
    dsimp only
    rw [if_neg hexit, if_pos htidy.tail, hreceived, Option.map_some]
    refine ⟨_, rfl, ?_⟩
    by_cases hnil : os.select.data = []
    · -- The buffers are as they were.
      rw [hnil, htidy.fill_nil, Function.update_eq_self, Option.toList_none, List.append_nil,
        List.append_nil]
      exact ⟨h.lt, h.listed, h.freeList, h.opened, h.tidy, h.free, h.holder, h.size⟩
    · obtain ⟨htidy', hheld, hsize⟩ := htidy.fill_take hlen
      have hlinks := Channel.take_links ((s.device.ocht handle).fill os.select.data)
      generalize ((s.device.ocht handle).fill os.select.data).take = r at *
      have hempty : ∀ j < maxOpenChannels, j ≠ handle → (s.device.ocht j).ibTail = 0 := by
        intro j hj hne
        rw [hcareful (by rwa [hreceived]) j hj hne, (h.tidy j hj).head]
      have hne : ∀ j, j ≠ handle →
          Function.update s.device.ocht handle r.1 j = s.device.ocht j :=
        fun j hj => Function.update_of_ne hj _ _
      exact
        { lt := h.lt
          listed := h.listed.update hlinks
          freeList := h.freeList
          opened := h.opened
          tidy := fun j hj => by
            by_cases hjh : j = handle
            · subst hjh
              change (Function.update s.device.ocht j r.1 j).Tidy
              rwa [Function.update_self]
            · change (Function.update s.device.ocht handle r.1 j).Tidy
              rw [hne j hjh]
              exact h.tidy j hj
          free := fun j hj hjlt => by
            have hjh : j ≠ handle := by omega
            change (Function.update s.device.ocht handle r.1 j).ibTail = 0
            rw [hne j hjh]
            exact h.free j hj hjlt
          holder := by
            refine ⟨handle, hlt, fun j hj hjh => ?_, ?_⟩
            · change (Function.update s.device.ocht handle r.1 j).ibTail = 0
              rw [hne j hjh]
              exact hempty j hj hjh
            · change (s.chunks ++ r.2.toList).flatten ++
                (Function.update s.device.ocht handle r.1 handle).held = s.stream ++ os.select.data
              rw [Function.update_self, List.flatten_append, List.append_assoc, hheld,
                ← List.append_assoc, h.holder_of hlt hempty]
          size := fun chunk hchunk => by
            obtain hold | hnew := List.mem_append.mp hchunk
            · exact h.size chunk hold
            · exact hsize chunk hnew }

/-- What is kept, in every run that meets the condition. -/
theorem kept_of_reachable (hs : (pipeRuns Careful).Reachable s) : ∃ k, s.Kept k := by
  refine TransitionSystem.Reachable.invariant (P := fun s => ∃ k, s.Kept k) ?_ ?_ hs
  · rintro s ⟨opened, rfl⟩
    exact ⟨0, kept_init opened⟩
  · rintro s t ⟨k, hk⟩ ⟨c, hallows, hcareful, hcall⟩
    cases c with
    | «open» =>
      obtain ⟨t', ht', hkept⟩ := hk.open hcareful
      obtain rfl := Option.some.inj (ht'.symm.trans hcall)
      exact ⟨k + 1, hkept⟩
    | read handle os =>
      obtain ⟨t', ht', hkept⟩ := hk.read hallows hcareful
      obtain rfl := Option.some.inj (ht'.symm.trans hcall)
      exact ⟨k, hkept⟩

end PipeRun

/-- In a run that does not take the last slot, and where nothing is read for a channel while another
holds a part of a chunk, the handles are the slots that were taken, and the chunks are what was
read; no call ends the process. -/
theorem pipe_faithful {s : PipeRun P} (hs : (pipeRuns PipeRun.Careful).Reachable s) :
    s.Faithful ∧ ∀ c, s.Allows c → s.Careful c → (s.call c).isSome := by
  obtain ⟨k, hk⟩ := PipeRun.kept_of_reachable hs
  refine ⟨hk.faithful, fun c hallows hcareful => ?_⟩
  cases c with
  | «open» =>
    obtain ⟨t, ht, -⟩ := hk.open hcareful
    rw [ht, Option.isSome_some]
  | read handle os =>
    obtain ⟨t, ht, -⟩ := hk.read hallows hcareful
    rw [ht, Option.isSome_some]

/-- The condition on `pipe_open` cannot be left out: the handle of the last slot was returned
before. -/
theorem PipeRun.not_faithful_of_last {s : PipeRun P} (hs : (pipeRuns PipeRun.Careful).Reachable s)
    (hlast : ¬ s.Careful .open) : ∃ t, s.call .open = some t ∧ ¬ t.Faithful := by
  obtain ⟨k, hk⟩ := PipeRun.kept_of_reachable hs
  have hfree : s.device.freeList = some (maxOpenChannels - 1) := not_not.mp hlast
  obtain rfl : k = maxOpenChannels - 1 := Option.some.inj (hk.freeList.symm.trans hfree)
  obtain ⟨x, hx, hhandle⟩ := Option.map_eq_some_iff.mp (pipeOpen_last hk.listed hfree)
  refine ⟨_, by rw [PipeRun.call, hx, Option.map_some], fun hfaithful => ?_⟩
  have hnodup : (((List.range (maxOpenChannels - 1)).map fun i => (i, i)) ++
      [(s.device.freeList.getD 0, x.2)] |>.map Prod.snd).Nodup := hk.opened ▸ hfaithful.nodup
  rw [hhandle, List.map_append, List.map_map] at hnodup
  revert hnodup
  change ¬ ((List.range (maxOpenChannels - 1)).map id ++ [0]).Nodup
  decide

/-! ### Sample runs -/

namespace PipeRun

/-- What some calls lead to, if each is allowed and meets a condition. -/
def ran (C : PipeRun P → PipeCall → Prop) [∀ s c, Decidable (C s c)] (calls : List PipeCall) :
    Option (PipeRun P) :=
  calls.foldlM (TransitionSystem.attempt (fun s c => s.Allows c ∧ C s c) call)
    ⟨pipeInit true, [], [], []⟩

theorem ran_reachable {C : PipeRun P → PipeCall → Prop} [∀ s c, Decidable (C s c)]
    {calls : List PipeCall} {s : PipeRun P} (h : ran C calls = some s) :
    (pipeRuns C).Reachable s := by
  have hinit : (pipeRuns C).Reachable ⟨pipeInit true, [], [], []⟩ := .init ⟨true, rfl⟩
  refine hinit.attempts ?_ h
  intro s c t hguard hst
  exact ⟨c, hguard.1, hguard.2, hst⟩

end PipeRun

/-- A read of some bytes. -/
def readBytes (handle : ℕ) (l : List Byte) : PipeCall := .read handle ⟨true, .ready (.bytes l)⟩

/-- Two channels are opened, and one of them gets a chunk in two parts. -/
theorem pipe_faithful_twoParts :
    ∃ s : PipeRun eightBytes, s.chunks = [[1, 2, 3, 4, 5, 6, 7, 8]] ∧
      (s.Faithful ∧ ∀ c, s.Allows c → s.Careful c → (s.call c).isSome) := by
  have hran : (PipeRun.ran (P := eightBytes) PipeRun.Careful [.open, .open, readBytes 1 [1, 2, 3],
      readBytes 1 [4, 5, 6, 7, 8]]).map PipeRun.chunks = some [[1, 2, 3, 4, 5, 6, 7, 8]] := by
    decide
  obtain ⟨s, hs, hchunks⟩ := Option.map_eq_some_iff.mp hran
  exact ⟨s, hchunks, pipe_faithful (PipeRun.ran_reachable hs)⟩

/-- A byte is read for a channel, and a whole chunk for another. -/
theorem pipe_unfaithful :
    ¬ ∀ s : PipeRun eightBytes, (pipeRuns fun _ _ => True).Reachable s → s.Faithful := by
  intro hall
  have hran : (PipeRun.ran (P := eightBytes) (fun _ _ => True) [.open, .open, readBytes 0 [1],
      readBytes 1 [2, 3, 4, 5, 6, 7, 8, 9]]).map (fun s => (s.chunks.flatten, s.stream)) =
        some ([2, 3, 4, 5, 6, 7, 8, 9], [1, 2, 3, 4, 5, 6, 7, 8, 9]) := by
    decide
  obtain ⟨s, hs, hread⟩ := Option.map_eq_some_iff.mp hran
  obtain ⟨hchunks, hstream⟩ := Prod.mk.inj hread
  obtain ⟨rest, hrest, -⟩ := (hall s (PipeRun.ran_reachable hs)).cut
  rw [hchunks, hstream] at hrest
  exact absurd (List.cons.inj hrest).1 (by decide)

end UnixPipe

end LeapPlatforms
