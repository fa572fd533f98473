import LeapPlatforms.Foundation.Draining
import LeapPlatforms.UnixPipe.ChannelTable

/-!
# The link over the UNIX pipes

The host process and the simulated board talk over two named pipes. On the board the driver's rules
call the C code, and the latency-insensitive device puts a queue of its own on either side of the
driver's. The host writes and reads bytes; the board's clients write and take chunks.

A `Read` of the host is one call of the system. Where it gets fewer bytes than it asked for, the
host's process ends.

## Main definitions

* `Link`, `Action`, `Link.next` — the link, and what its parts do
* `Enabled`, `link` — when they do it, and the runs
* `ChunkReads` — the host reads a chunk at a time
* `Link.Inv` — where everything is that was written

## Main results

* `Link.Inv.next` — the step lemma
* `link_delivers` — over every run
-/

namespace LeapPlatforms

namespace UnixPipe

open Bytes Umf

variable {P : Params}

/-! ### The code -/

/-- `STATE`. -/
inductive DeviceState
  | init0
  | init1
  | ready
  deriving DecidableEq

/-- `POLL_INTERVAL`. -/
def pollInterval : BitVec 32 := 0

/-- What a queue of the board holds at most. -/
def fifoDepth : ℕ := 2

variable (P) in
/-- Both processes, and the pipes between them. The C code is a `PipeRun`: with its calls so far. -/
structure Link extends PipeRun P where
  /-- `DESC_FPGA_2_HOST` is a descriptor. -/
  descFpga2Host : Bool := false
  state : DeviceState := .init0
  handle : BitVec 8 := 0
  pollCounter : BitVec 32 := 0
  readBuffer : List (Chunk P) := []
  writeBuffer : List (Chunk P) := []
  readFIFO : List (Chunk P) := []
  writeFIFO : List (Chunk P) := []
  /-- The pipe to the board. -/
  toFpga : List Byte := []
  /-- The pipe from the board. -/
  fromFpga : List Byte := []
  /-- What of a `Write` is not in the pipe yet. -/
  writing : List Byte := []
  /-- The host's process has ended. -/
  exited : Bool := false
  /-- What the host has written, and what it has read. -/
  hostWrote : List Byte := []
  hostRead : List Byte := []
  /-- What the board's clients have written, and what they have taken. -/
  boardWrote : List (Chunk P) := []
  boardTook : List (Chunk P) := []

variable (P) in
/-- The rules of the driver and of the device, what clients do on either side, and how a `Write`
gets into the pipe. -/
inductive Action
  | cyclePollCounter
  | initializeC (output input : Bool)
  | openCChannel
  | readBdpi (os : OsAnswer)
  | writeBdpi (opens writable : Bool)
  | transferRead
  | transferWrite
  | deq
  | write (chunk : Chunk P)
  | hostWrite (buf : List Byte)
  | push (n : ℕ)
  | hostRead (bytesRequested : ℕ)

/-- What `pipe_can_write` returns, with the descriptor. -/
def pipeCanWrite (d : PipeDevice P) (desc : Bool) (handle : ℕ) (opens writable : Bool) :
    Bool × Bool :=
  if desc = false ∧ opens = false then (false, false)
  else ((d.ocht handle).isOpen && writable, true)

namespace Link

variable (s : Link P)

/-- `initialize`. -/
def initializeC (output input : Bool) : Link P :=
  { s with toPipeRun := ⟨pipeInit input, [], [], []⟩, descFpga2Host := output, state := .init1 }

/-- `open_C_channel`. -/
def openCChannel : Option (Link P) :=
  (s.toPipeRun.call .open).map fun pipe =>
    { s with
      toPipeRun := pipe
      handle := BitVec.ofNat 8 ((pipe.opened.getLast?.map Prod.snd).getD 0)
      state := .ready }

/-- The chunks that a call has added to what the C code returned. -/
def added (pipe : PipeRun P) : List (Chunk P) :=
  (pipe.chunks.drop s.chunks.length).map (ofBytes P.chunkBytes)

/-- `read_bdpi`. -/
def readBdpi (os : OsAnswer) : Option (Link P) :=
  (s.toPipeRun.call (.read s.handle.toNat os)).map fun pipe =>
    { s with
      toPipeRun := pipe
      readBuffer := s.readBuffer ++ s.added pipe
      toFpga := s.toFpga.drop (s.received s.handle.toNat os).length
      pollCounter := pollInterval }

/-- `write_bdpi`, with `pipe_write`. -/
def writeBdpi (opens writable : Bool) : Link P :=
  let can := pipeCanWrite s.device s.descFpga2Host s.handle.toNat opens writable
  match can.1, s.writeBuffer with
  | true, chunk :: rest =>
    { s with
      descFpga2Host := can.2
      writeBuffer := rest
      fromFpga := s.fromFpga ++ toBytes P.chunkBytes chunk }
  | _, _ => { s with descFpga2Host := can.2 }

/-- `transferRead`. -/
def transferRead : Link P :=
  { s with readBuffer := s.readBuffer.tail, readFIFO := s.readFIFO ++ s.readBuffer.head?.toList }

/-- `transferWrite`. -/
def transferWrite : Link P :=
  { s with
    writeFIFO := s.writeFIFO.tail, writeBuffer := s.writeBuffer ++ s.writeFIFO.head?.toList }

/-- `Read`. -/
def read (bytesRequested : ℕ) : Link P :=
  { s with
    fromFpga := s.fromFpga.drop bytesRequested
    hostRead := s.hostRead ++ s.fromFpga.take bytesRequested
    exited := s.exited || s.fromFpga.length < bytesRequested }

/-- What an action does. It gives nothing when an assertion fails, or the simulator exits. -/
def next : Action P → Option (Link P)
  | .cyclePollCounter => some { s with pollCounter := s.pollCounter - 1 }
  | .initializeC output input => some (s.initializeC output input)
  | .openCChannel => s.openCChannel
  | .readBdpi os => s.readBdpi os
  | .writeBdpi opens writable => some (s.writeBdpi opens writable)
  | .transferRead => some s.transferRead
  | .transferWrite => some s.transferWrite
  | .deq =>
    some { s with
      readFIFO := s.readFIFO.tail, boardTook := s.boardTook ++ s.readFIFO.head?.toList }
  | .write chunk =>
    some { s with
      writeFIFO := s.writeFIFO ++ [chunk], boardWrote := s.boardWrote ++ [chunk] }
  | .hostWrite buf => some { s with writing := buf, hostWrote := s.hostWrote ++ buf }
  | .push n =>
    some { s with writing := s.writing.drop n, toFpga := s.toFpga ++ s.writing.take n }
  | .hostRead bytesRequested => some (s.read bytesRequested)

end Link

/-- What the system may answer to a `read` of the pipe: no error, and bytes that are in the pipe. -/
structure OsAnswer.Fits (os : OsAnswer) (s : Link P) : Prop where
  continues : os.select.continues = true
  nonempty : os.select ≠ .ready (.bytes [])
  bound : os.select.data.length ≤ P.chunkBytes - (s.device.ocht s.handle.toNat).ibTail
  inPipe : os.select.data <+: s.toFpga

/-- When an action happens. Each of the pipes holds `capacity` bytes; a chunk is written where there
is room for it, and a `Read` of an empty pipe waits. -/
def Enabled (capacity : ℕ) (s : Link P) : Action P → Prop
  | .cyclePollCounter => s.state = .ready ∧ s.pollCounter ≠ 0
  | .initializeC _ _ => s.state = .init0
  | .openCChannel => s.state = .init1
  | .readBdpi os =>
    s.state = .ready ∧ s.pollCounter = 0 ∧ s.readBuffer.length < fifoDepth ∧ os.Fits s
  | .writeBdpi _ writable =>
    s.state = .ready ∧ s.writeBuffer ≠ [] ∧
      (writable = true → s.fromFpga.length + P.chunkBytes ≤ capacity)
  | .transferRead => s.readBuffer ≠ [] ∧ s.readFIFO.length < fifoDepth
  | .transferWrite => s.writeFIFO ≠ [] ∧ s.writeBuffer.length < fifoDepth
  | .deq => s.readFIFO ≠ []
  | .write _ => s.writeFIFO.length < fifoDepth
  | .hostWrite _ => s.exited = false ∧ s.writing = []
  | .push n => s.exited = false ∧ n ≤ s.writing.length ∧ s.toFpga.length + n ≤ capacity
  | .hostRead n => s.exited = false ∧ (s.fromFpga ≠ [] ∨ n = 0)

/-- The host reads a chunk at a time. -/
def ChunkReads : Action P → Prop
  | .hostRead bytesRequested => bytesRequested = P.chunkBytes
  | _ => True

/-- A client does nothing new. -/
def Internal : Action P → Prop
  | .write _ => False
  | .hostWrite _ => False
  | _ => True

/-- A step that one of the actions with a condition makes. -/
def StepBy (capacity : ℕ) (C : Action P → Prop) (s t : Link P) : Prop :=
  ∃ a, Enabled capacity s a ∧ C a ∧ s.next a = some t

variable (P) in
/-- The runs of the link in which the host reads a chunk at a time. -/
def link (capacity : ℕ) : TransitionSystem (Link P) where
  init s := ∃ d, s = { toPipeRun := ⟨d, [], [], []⟩ }
  step := StepBy capacity ChunkReads

/-! ### The invariant -/

/-- The bytes of some chunks. -/
def bytesOf (l : List (Chunk P)) : List Byte := l.flatMap (toBytes P.chunkBytes)

/-- Where everything is. What was read from the pipe to the board is in the chunks that the C code
returned, or is held by its channel; the pipe from the board holds whole chunks. -/
structure Link.Inv (s : Link P) : Prop where
  unused : s.state = .init0 → s.chunks = [] ∧ s.stream = []
  initialized : s.state = .init1 → s.toPipeRun.Kept 0
  opened : s.state = .ready → s.toPipeRun.Kept 1 ∧ s.handle = 0
  pollCounter : s.pollCounter = 0
  toBoard : s.stream ++ s.toFpga ++ s.writing = s.hostWrote
  taken : s.boardTook ++ s.readFIFO ++ s.readBuffer = s.chunks.map (ofBytes P.chunkBytes)
  toHost : s.hostRead ++ s.fromFpga ++ bytesOf (s.writeBuffer ++ s.writeFIFO) = bytesOf s.boardWrote
  aligned : P.chunkBytes ∣ s.fromFpga.length
  alive : s.exited = false

section

variable {s : Link P} {capacity : ℕ}

theorem bytesOf_append (l l' : List (Chunk P)) : bytesOf (l ++ l') = bytesOf l ++ bytesOf l' :=
  List.flatMap_append

theorem bytesOf_cons (chunk : Chunk P) (l : List (Chunk P)) :
    bytesOf (chunk :: l) = toBytes P.chunkBytes chunk ++ bytesOf l :=
  List.flatMap_cons

theorem head_append_tail {α : Type*} (l : List α) : l.head?.toList ++ l.tail = l := by
  cases l <;> rfl

theorem Link.Inv.init (d : PipeDevice P) : Link.Inv { toPipeRun := ⟨d, [], [], []⟩ } where
  unused _ := ⟨rfl, rfl⟩
  initialized h := by cases h
  opened h := by cases h
  pollCounter := rfl
  toBoard := rfl
  taken := rfl
  toHost := rfl
  aligned := Nat.dvd_zero _
  alive := rfl

/-- What the C code returned is what it read, but for a part of a chunk. -/
theorem Link.Inv.stream_eq (h : s.Inv) :
    ∃ rest, bytesOf (s.boardTook ++ s.readFIFO ++ s.readBuffer) ++ rest = s.stream ∧
      rest.length < P.chunkBytes := by
  have hbytes : ∀ l : List (List Byte), (∀ chunk ∈ l, chunk.length = P.chunkBytes) →
      bytesOf (l.map (ofBytes P.chunkBytes)) = l.flatten := by
    intro l hl
    induction l with
    | nil => rfl
    | cons chunk l ih =>
      rw [List.map_cons, List.flatten_cons, bytesOf, List.flatMap_cons,
        toBytes_ofBytes (hl chunk (by simp))]
      exact congrArg _ (ih fun c hc => hl c (List.mem_cons_of_mem _ hc))
  rw [h.taken]
  rcases hstate : s.state with _ | _ | _
  · obtain ⟨hchunks, hstream⟩ := h.unused hstate
    exact ⟨[], by rw [hchunks, hstream]; rfl, Message.chunkBytes_pos⟩
  · have hkept := h.initialized hstate
    obtain ⟨rest, hrest, hlt⟩ := hkept.faithful.cut
    exact ⟨rest, by rw [hbytes _ hkept.size, hrest], hlt⟩
  · have hkept := (h.opened hstate).1
    obtain ⟨rest, hrest, hlt⟩ := hkept.faithful.cut
    exact ⟨rest, by rw [hbytes _ hkept.size, hrest], hlt⟩

/-! ### The steps -/

theorem Link.Inv.initializeC (h : s.Inv) (hstate : s.state = .init0) (output input : Bool) :
    (s.initializeC output input).Inv where
  unused hs := by cases hs
  initialized _ := PipeRun.kept_init input
  opened hs := by cases hs
  pollCounter := h.pollCounter
  toBoard := by
    have := h.toBoard
    rwa [(h.unused hstate).2] at this
  taken := by
    have := h.taken
    rwa [(h.unused hstate).1] at this
  toHost := h.toHost
  aligned := h.aligned
  alive := h.alive

/-- The one channel is opened. -/
theorem Link.Inv.openCChannel (h : s.Inv) (hstate : s.state = .init1) :
    ∃ t, s.openCChannel = some t ∧ t.Inv ∧ t.state = .ready ∧
      { t with toPipeRun := s.toPipeRun, handle := s.handle, state := s.state } = s := by
  have hkept := h.initialized hstate
  have hcareful : s.toPipeRun.Careful .open := by
    change s.device.freeList ≠ _
    rw [hkept.freeList]
    decide
  obtain ⟨pipe, hcall, hkept'⟩ := hkept.open hcareful
  have hhist : pipe.stream = s.stream ∧ pipe.chunks = s.chunks := by
    obtain ⟨x, -, rfl⟩ := Option.map_eq_some_iff.mp hcall
    exact ⟨rfl, rfl⟩
  have hhandle : (pipe.opened.getLast?.map Prod.snd).getD 0 = 0 := by
    rw [hkept'.opened]
    rfl
  have hopen : s.openCChannel = some { s with
      toPipeRun := pipe
      handle := BitVec.ofNat 8 ((pipe.opened.getLast?.map Prod.snd).getD 0)
      state := .ready } := by
    rw [Link.openCChannel, hcall]
    rfl
  refine ⟨_, hopen, ?_, rfl, rfl⟩
  exact
    { unused := fun hs => by cases hs
      initialized := fun hs => by cases hs
      opened := fun _ => ⟨hkept', congrArg (BitVec.ofNat 8) hhandle⟩
      pollCounter := h.pollCounter
      toBoard := by
        change pipe.stream ++ _ ++ _ = _
        rw [hhist.1]
        exact h.toBoard
      taken := by
        change _ = pipe.chunks.map _
        rw [hhist.2]
        exact h.taken
      toHost := h.toHost
      aligned := h.aligned
      alive := h.alive }

/-- A call of `pipe_read` returns. It takes the first bytes of the pipe, if any, and returns one
chunk at most. -/
theorem Link.Inv.pipeRead_call (h : s.Inv) (hstate : s.state = .ready) {os : OsAnswer}
    (hos : os.Fits s) :
    ∃ pipe, s.toPipeRun.call (.read s.handle.toNat os) = some pipe ∧ pipe.Kept 1 ∧
      pipe.stream = s.stream ++ s.received s.handle.toNat os ∧
      (∃ o : Option (List Byte), pipe.chunks = s.chunks ++ o.toList) ∧
      s.received s.handle.toNat os ++ s.toFpga.drop (s.received s.handle.toNat os).length =
        s.toFpga := by
  obtain ⟨hkept, hhandle⟩ := h.opened hstate
  have hzero : s.handle.toNat = 0 := by
    rw [hhandle]
    rfl
  have hallows : s.toPipeRun.Allows (.read s.handle.toNat os) := by
    refine ⟨?_, hos.continues, hos.nonempty, hos.bound⟩
    rw [hkept.opened, hzero]
    decide
  have hcareful : s.toPipeRun.Careful (.read s.handle.toNat os) := by
    intro _ i hi hne
    rw [hzero] at hne
    rw [hkept.free i (Nat.one_le_iff_ne_zero.mpr hne) hi, (hkept.tidy i hi).head]
  obtain ⟨pipe, hcall, hkept'⟩ := hkept.read hallows hcareful
  refine ⟨pipe, hcall, hkept', ?_⟩
  obtain ⟨x, -, rfl⟩ := Option.map_eq_some_iff.mp hcall
  refine ⟨rfl, ⟨x.2, rfl⟩, ?_⟩
  have hprefix : s.received s.handle.toNat os <+: s.toFpga := by
    rw [PipeRun.received]
    split_ifs
    · exact List.nil_prefix
    · exact hos.inPipe
    · exact List.nil_prefix
  obtain ⟨rest, hrest⟩ := hprefix
  rw [← hrest, List.drop_left]

theorem Link.Inv.readBdpi (h : s.Inv) (hstate : s.state = .ready) {os : OsAnswer}
    (hos : os.Fits s) : ∃ t, s.readBdpi os = some t ∧ t.Inv := by
  obtain ⟨pipe, hcall, hkept, hstream, ⟨o, hchunks⟩, hbytes⟩ := h.pipeRead_call hstate hos
  refine ⟨_, congrArg (Option.map _) hcall, ?_⟩
  exact
    { unused := fun hs => by
        change s.state = _ at hs
        rw [hstate] at hs
        cases hs
      initialized := fun hs => by
        change s.state = _ at hs
        rw [hstate] at hs
        cases hs
      opened := fun _ => ⟨hkept, (h.opened hstate).2⟩
      pollCounter := rfl
      toBoard := by
        change pipe.stream ++ _ ++ _ = _
        rw [hstream, List.append_assoc s.stream, hbytes]
        exact h.toBoard
      taken := by
        change _ ++ (s.readBuffer ++ s.added pipe) = pipe.chunks.map _
        rw [Link.added, hchunks, List.drop_left, ← List.append_assoc, h.taken, List.map_append]
      toHost := h.toHost
      aligned := h.aligned
      alive := h.alive }

/-- `pipe_can_write` may open the descriptor, and that is all it changes. -/
theorem Link.writeBdpi_eq (s : Link P) (opens writable : Bool) :
    ∃ desc, s.writeBdpi opens writable = { s with descFpga2Host := desc } ∨
      writable = true ∧ ∃ chunk rest, s.writeBuffer = chunk :: rest ∧
        s.writeBdpi opens writable = { s with
          descFpga2Host := desc
          writeBuffer := rest
          fromFpga := s.fromFpga ++ toBytes P.chunkBytes chunk } := by
  refine ⟨(pipeCanWrite s.device s.descFpga2Host s.handle.toNat opens writable).2, ?_⟩
  rw [Link.writeBdpi]
  rcases hcan : (pipeCanWrite s.device s.descFpga2Host s.handle.toNat opens writable).1 with _ | _
  · exact .inl rfl
  · rcases hbuf : s.writeBuffer with _ | ⟨chunk, rest⟩
    · exact .inl rfl
    · refine .inr ⟨?_, chunk, rest, rfl, rfl⟩
      rw [pipeCanWrite] at hcan
      split at hcan
      · cases hcan
      · exact (Bool.and_eq_true _ _ ▸ hcan).2

theorem Link.Inv.writeBdpi (h : s.Inv) (opens writable : Bool) :
    (s.writeBdpi opens writable).Inv := by
  obtain ⟨desc, heq | ⟨-, chunk, rest, hbuf, heq⟩⟩ := s.writeBdpi_eq opens writable
  · rw [heq]
    exact ⟨h.unused, h.initialized, h.opened, h.pollCounter, h.toBoard, h.taken, h.toHost,
      h.aligned, h.alive⟩
  · rw [heq]
    refine ⟨h.unused, h.initialized, h.opened, h.pollCounter, h.toBoard, h.taken, ?_, ?_, h.alive⟩
    · have := h.toHost
      rw [hbuf, List.cons_append, bytesOf_cons] at this
      simpa only [List.append_assoc] using this
    · change _ ∣ (s.fromFpga ++ _).length
      rw [List.length_append, length_toBytes]
      exact Nat.dvd_add h.aligned (Nat.dvd_refl _)

theorem Link.Inv.transferRead (h : s.Inv) : s.transferRead.Inv := by
  refine ⟨h.unused, h.initialized, h.opened, h.pollCounter, h.toBoard, ?_, h.toHost, h.aligned,
    h.alive⟩
  change s.boardTook ++ (s.readFIFO ++ s.readBuffer.head?.toList) ++ s.readBuffer.tail = _
  rw [List.append_assoc, List.append_assoc, head_append_tail, ← List.append_assoc]
  exact h.taken

theorem Link.Inv.transferWrite (h : s.Inv) : s.transferWrite.Inv := by
  refine ⟨h.unused, h.initialized, h.opened, h.pollCounter, h.toBoard, h.taken, ?_, h.aligned,
    h.alive⟩
  change _ ++ _ ++ bytesOf (s.writeBuffer ++ s.writeFIFO.head?.toList ++ s.writeFIFO.tail) = _
  rw [List.append_assoc s.writeBuffer, head_append_tail]
  exact h.toHost

/-- A `Read` of a chunk gets a chunk: the pipe holds whole ones. -/
theorem Link.Inv.read (h : s.Inv) (hne : s.fromFpga ≠ []) : (s.read P.chunkBytes).Inv := by
  have hle : P.chunkBytes ≤ s.fromFpga.length :=
    Nat.le_of_dvd (List.length_pos_iff.mpr hne) h.aligned
  refine ⟨h.unused, h.initialized, h.opened, h.pollCounter, h.toBoard, h.taken, ?_, ?_, ?_⟩
  · change s.hostRead ++ s.fromFpga.take _ ++ s.fromFpga.drop _ ++ _ = _
    rw [List.append_assoc s.hostRead, List.take_append_drop]
    exact h.toHost
  · change _ ∣ (s.fromFpga.drop _).length
    rw [List.length_drop]
    exact Nat.dvd_sub h.aligned (Nat.dvd_refl _)
  · change (s.exited || decide _) = false
    rw [h.alive, Bool.false_or, decide_eq_false (Nat.not_lt.mpr hle)]

/-- **The step lemma.** No assertion fails, and the simulator does not exit. -/
theorem Link.Inv.next (h : s.Inv) {a : Action P} (he : Enabled capacity s a) (ha : ChunkReads a) :
    ∃ t, s.next a = some t ∧ t.Inv := by
  cases a with
  | cyclePollCounter => exact absurd h.pollCounter he.2
  | initializeC output input => exact ⟨_, rfl, h.initializeC he output input⟩
  | openCChannel =>
    obtain ⟨t, ht, hinv, -⟩ := h.openCChannel he
    exact ⟨t, ht, hinv⟩
  | readBdpi os => exact h.readBdpi he.1 he.2.2.2
  | writeBdpi opens writable => exact ⟨_, rfl, h.writeBdpi opens writable⟩
  | transferRead => exact ⟨_, rfl, h.transferRead⟩
  | transferWrite => exact ⟨_, rfl, h.transferWrite⟩
  | deq =>
    refine ⟨_, rfl, h.unused, h.initialized, h.opened, h.pollCounter, h.toBoard, ?_, h.toHost,
      h.aligned, h.alive⟩
    change s.boardTook ++ s.readFIFO.head?.toList ++ s.readFIFO.tail ++ s.readBuffer = _
    rw [List.append_assoc s.boardTook, head_append_tail]
    exact h.taken
  | write chunk =>
    refine ⟨_, rfl, h.unused, h.initialized, h.opened, h.pollCounter, h.toBoard, h.taken, ?_,
      h.aligned, h.alive⟩
    change _ ++ _ ++ bytesOf (s.writeBuffer ++ (s.writeFIFO ++ [chunk])) =
      bytesOf (s.boardWrote ++ [chunk])
    rw [← List.append_assoc s.writeBuffer, bytesOf_append, ← List.append_assoc, h.toHost,
      bytesOf_append]
  | hostWrite buf =>
    refine ⟨_, rfl, h.unused, h.initialized, h.opened, h.pollCounter, ?_, h.taken, h.toHost,
      h.aligned, h.alive⟩
    change s.stream ++ s.toFpga ++ buf = s.hostWrote ++ buf
    rw [← h.toBoard, he.2, List.append_nil]
  | push n =>
    refine ⟨_, rfl, h.unused, h.initialized, h.opened, h.pollCounter, ?_, h.taken, h.toHost,
      h.aligned, h.alive⟩
    change s.stream ++ (s.toFpga ++ s.writing.take n) ++ s.writing.drop n = _
    rw [← List.append_assoc, List.append_assoc _ (s.writing.take n), List.take_append_drop]
    exact h.toBoard
  | hostRead n =>
    obtain rfl : n = P.chunkBytes := ha
    refine ⟨_, rfl, h.read (he.2.resolve_right ?_)⟩
    exact Nat.ne_of_gt Message.chunkBytes_pos

theorem Link.inv_of_reachable (hs : (link P capacity).Reachable s) : s.Inv := by
  refine TransitionSystem.Reachable.invariant (P := Link.Inv) ?_ ?_ hs
  · rintro s ⟨d, rfl⟩
    exact Link.Inv.init d
  · rintro s t h ⟨a, he, ha, hnext⟩
    obtain ⟨t', ht', hinv⟩ := h.next he ha
    obtain rfl := Option.some.inj (ht'.symm.trans hnext)
    exact hinv

/-! ### Draining -/

/-- The rules that the C code is still to be set up with. -/
def DeviceState.toGo : DeviceState → ℕ
  | .init0 => 2
  | .init1 => 1
  | .ready => 0

/-- How far what was written still has to go. A part of a chunk does not go on. -/
def Link.toGo (s : Link P) : ℕ :=
  s.state.toGo + 6 * s.writing.length + 5 * s.toFpga.length + 2 * s.readBuffer.length +
    s.readFIFO.length + (s.fromFpga.length + (P.chunkBytes + 1) * s.writeBuffer.length +
      (P.chunkBytes + 2) * s.writeFIFO.length)

/-- The clients have written what they had. -/
structure Link.After (s₀ s : Link P) : Prop where
  inv : s.Inv
  hostWrote : s.hostWrote = s₀.hostWrote
  boardWrote : s.boardWrote = s₀.boardWrote

variable {s₀ t : Link P}

/-- A step that moves something on. -/
theorem Link.After.moves (h : s₀.After s) {a : Action P} (he : Enabled capacity s a)
    (ha : ChunkReads a ∧ Internal a) (hnext : s.next a = some t)
    (hhost : t.hostWrote = s.hostWrote) (hboard : t.boardWrote = s.boardWrote)
    (hlt : t.toGo < s.toGo) :
    ∃ t, StepBy capacity (fun a => ChunkReads a ∧ Internal a) s t ∧ s₀.After t ∧
      t.toGo < s.toGo := by
  obtain ⟨t', ht', hinv⟩ := h.inv.next he ha.1
  obtain rfl := Option.some.inj (ht'.symm.trans hnext)
  exact ⟨t', ⟨a, he, ha, hnext⟩, ⟨hinv, hhost.trans h.hostWrote, hboard.trans h.boardWrote⟩, hlt⟩

/-- A byte is read from the pipe to the board, where there is room for a chunk. -/
theorem Link.After.readBdpi_moves (h : s₀.After s) (hstate : s.state = .ready)
    (hbuf : s.readBuffer = []) (hpipe : s.toFpga ≠ []) :
    ∃ t, StepBy capacity (fun a => ChunkReads a ∧ Internal a) s t ∧ s₀.After t ∧
      t.toGo < s.toGo := by
  obtain ⟨byte, rest, hbytes⟩ := List.exists_cons_of_ne_nil hpipe
  obtain ⟨hkept, hhandle⟩ := h.inv.opened hstate
  have htidy : (s.device.ocht s.handle.toNat).Tidy := by
    rw [hhandle]
    exact hkept.tidy 0 (by decide)
  let os : OsAnswer := ⟨true, .ready (.bytes [byte])⟩
  have hos : os.Fits s := by
    refine ⟨rfl, (fun hnil => by cases hnil), ?_, ?_⟩
    · exact Nat.sub_pos_of_lt htidy.tail
    · rw [hbytes]
      exact ⟨rest, rfl⟩
  have hreceived : s.received s.handle.toNat os = [byte] := by
    rw [PipeRun.received, if_neg (fun hclosed => by cases hclosed.2), if_pos htidy.tail]
    rfl
  obtain ⟨pipe, hcall, -, -, ⟨o, hchunks⟩, -⟩ := h.inv.pipeRead_call hstate hos
  refine h.moves (a := .readBdpi os) ⟨hstate, h.inv.pollCounter, ?_, hos⟩ ⟨trivial, trivial⟩
    (congrArg (Option.map _) hcall) rfl rfl ?_
  · rw [hbuf]
    exact Nat.zero_lt_two
  · have hadded : (s.added pipe).length ≤ 1 := by
      rw [Link.added, hchunks, List.drop_left, List.length_map]
      cases o <;> simp
    simp only [Link.toGo, hreceived, hbuf, hbytes, List.length_append, List.length_drop,
      List.length_cons, List.length_nil]
    omega

/-- What can be moved on, from the ends of the link on. -/
theorem Link.progresses (hcap : P.chunkBytes ≤ capacity) (s₀ : Link P) :
    Draining.Progresses (StepBy capacity fun a => ChunkReads a ∧ Internal a) Link.toGo
      (Link.After s₀) := by
  intro s h hpos
  have hchunk : 0 < P.chunkBytes := Message.chunkBytes_pos
  rcases hstate : s.state with _ | _ | _
  · refine h.moves (a := .initializeC true true) hstate ⟨trivial, trivial⟩ rfl rfl rfl ?_
    simp only [Link.toGo, Link.initializeC, hstate, DeviceState.toGo]
    omega
  · obtain ⟨t, ht, -, hready, heq⟩ := h.inv.openCChannel hstate
    have hlt : t.toGo < s.toGo := by
      rw [← heq]
      simp only [Link.toGo, hready, hstate, DeviceState.toGo]
      omega
    exact h.moves (a := .openCChannel) hstate ⟨trivial, trivial⟩ ht (by rw [← heq])
      (by rw [← heq]) hlt
  rcases hdeq : s.readFIFO with _ | ⟨chunk, rest⟩
  swap
  · refine h.moves (a := .deq) ?_ ⟨trivial, trivial⟩ rfl rfl rfl ?_
    · change s.readFIFO ≠ []
      rw [hdeq]
      exact List.cons_ne_nil _ _
    · simp only [Link.toGo, hdeq, List.tail_cons, List.length_cons]
      omega
  rcases hread : s.readBuffer with _ | ⟨chunk, rest⟩
  swap
  · refine h.moves (a := .transferRead) ?_ ⟨trivial, trivial⟩ rfl rfl rfl ?_
    · refine ⟨?_, by rw [hdeq]; exact Nat.zero_lt_two⟩
      rw [hread]
      exact List.cons_ne_nil _ _
    · simp only [Link.toGo, Link.transferRead, hread, hdeq, List.tail_cons, List.head?_cons,
        Option.toList_some, List.nil_append, List.length_cons, List.length_nil]
      omega
  by_cases hpipe : s.toFpga = []
  swap
  · exact h.readBdpi_moves hstate hread hpipe
  rcases hwriting : s.writing with _ | ⟨byte, rest⟩
  swap
  · refine h.moves (a := .push 1) ?_ ⟨trivial, trivial⟩ rfl rfl rfl ?_
    · refine ⟨h.inv.alive, ?_, ?_⟩
      · rw [hwriting]
        exact Nat.le_add_left 1 _
      · rw [hpipe, List.length_nil]
        omega
    · simp only [Link.toGo, hwriting, hpipe, List.take_succ_cons, List.take_zero, List.drop_one,
        List.tail_cons, List.nil_append, List.length_cons, List.length_nil]
      omega
  by_cases hfrom : s.fromFpga = []
  swap
  · refine h.moves (a := .hostRead P.chunkBytes) ⟨h.inv.alive, .inl hfrom⟩ ⟨rfl, trivial⟩ rfl rfl
      rfl ?_
    have hlen := List.length_pos_iff.mpr hfrom
    simp only [Link.toGo, Link.read, List.length_drop]
    omega
  rcases hwrite : s.writeBuffer with _ | ⟨chunk, rest⟩
  swap
  · have hopen : (s.device.ocht s.handle.toNat).isOpen = true := by
      obtain ⟨hkept, hhandle⟩ := h.inv.opened hstate
      rw [hhandle]
      exact hkept.listed.opened 0 (by decide)
    refine h.moves (a := .writeBdpi true true) ⟨hstate, ?_, fun _ => ?_⟩ ⟨trivial, trivial⟩ rfl ?_
      ?_ ?_
    · rw [hwrite]
      exact List.cons_ne_nil _ _
    · rw [hfrom, List.length_nil, Nat.zero_add]
      exact hcap
    all_goals simp only [Link.writeBdpi, pipeCanWrite, hopen, hwrite, Bool.true_eq_false,
      and_false, if_false, Bool.and_self]
    simp only [Link.toGo, hwrite, hfrom, List.nil_append, length_toBytes, List.length_cons,
      List.length_nil, Nat.mul_add, Nat.mul_one]
    omega
  rcases htransfer : s.writeFIFO with _ | ⟨chunk, rest⟩
  swap
  · refine h.moves (a := .transferWrite) ?_ ⟨trivial, trivial⟩ rfl rfl rfl ?_
    · refine ⟨?_, by rw [hwrite]; exact Nat.zero_lt_two⟩
      rw [htransfer]
      exact List.cons_ne_nil _ _
    · simp only [Link.toGo, Link.transferWrite, htransfer, hwrite, List.tail_cons, List.head?_cons,
        Option.toList_some, List.nil_append, List.length_cons, List.length_nil, Nat.mul_add,
        Nat.mul_one]
      omega
  simp only [Link.toGo, hstate, DeviceState.toGo, hdeq, hread, hpipe, hwriting, hfrom, hwrite,
    htransfer, List.length_nil, Nat.mul_zero, Nat.add_zero, Nat.lt_irrefl] at hpos

/-- Nothing is on the way. -/
theorem Link.toGo_eq_zero (h : s.toGo = 0) :
    s.writing = [] ∧ s.toFpga = [] ∧ s.readBuffer = [] ∧ s.readFIFO = [] ∧ s.fromFpga = [] ∧
      s.writeBuffer = [] ∧ s.writeFIFO = [] := by
  have hpos : ∀ n k, (P.chunkBytes + k) * n = 0 → n = 0 := fun n k hn =>
    (Nat.mul_eq_zero.mp hn).resolve_left
      (Nat.ne_of_gt (Nat.lt_of_lt_of_le Message.chunkBytes_pos (Nat.le_add_right _ _)))
  simp only [Link.toGo, Nat.add_eq_zero_iff] at h
  obtain ⟨⟨⟨⟨⟨-, h1⟩, h2⟩, h3⟩, h4⟩, ⟨h5, h6⟩, h7⟩ := h
  simp only [← List.length_eq_zero_iff]
  exact ⟨by omega, by omega, by omega, h4, h5, hpos _ 1 h6, hpos _ 2 h7⟩

/-! ### The link -/

/-- What is said of a state of the link. -/
structure Link.Delivers (capacity : ℕ) (s : Link P) : Prop where
  /-- The board's clients take the chunks that the host's bytes make, in their order. -/
  toBoard : bytesOf s.boardTook <+: s.hostWrote
  /-- The host reads the bytes of the chunks that the clients wrote, in theirs. -/
  toHost : s.hostRead <+: bytesOf s.boardWrote
  /-- No `Read` of a chunk was short. -/
  alive : s.exited = false
  /-- No assertion fails, whatever comes next, and the simulator does not exit. -/
  answers : ∀ a, Enabled capacity s a → ChunkReads a → (s.next a).isSome
  /-- When the clients write no more, everything comes through but for a part of a chunk. -/
  drains : ∃ t, Relation.ReflTransGen (StepBy capacity fun a => ChunkReads a ∧ Internal a) s t ∧
    t.hostRead = bytesOf s.boardWrote ∧
    ∃ rest, bytesOf t.boardTook ++ rest = s.hostWrote ∧ rest.length < P.chunkBytes

/-- **The link** delivers in both directions, in every state that a run reaches. -/
theorem link_delivers (hcap : P.chunkBytes ≤ capacity) (hs : (link P capacity).Reachable s) :
    s.Delivers capacity := by
  have h := Link.inv_of_reachable hs
  refine ⟨?_, ?_, h.alive, ?_, ?_⟩
  · obtain ⟨rest, hrest, -⟩ := h.stream_eq
    rw [← h.toBoard, ← hrest, bytesOf_append, bytesOf_append]
    simp only [List.append_assoc]
    exact List.prefix_append _ _
  · rw [← h.toHost, List.append_assoc]
    exact List.prefix_append _ _
  · intro a he ha
    obtain ⟨t, ht, -⟩ := h.next he ha
    rw [ht, Option.isSome_some]
  · obtain ⟨t, hst, ht, hzero⟩ := (Link.progresses hcap s).exists_drained ⟨h, rfl, rfl⟩
    obtain ⟨hwriting, hpipe, hbuf, hfifo, hfrom, hwrite, htransfer⟩ := Link.toGo_eq_zero hzero
    refine ⟨t, hst, ?_, ?_⟩
    · have := ht.inv.toHost
      rwa [hfrom, hwrite, htransfer, List.append_nil, List.append_nil, ht.boardWrote,
        show bytesOf ([] : List (Chunk P)) = [] from rfl, List.append_nil] at this
    · obtain ⟨rest, hrest, hlt⟩ := ht.inv.stream_eq
      have := ht.inv.toBoard
      rw [hwriting, hpipe, List.append_nil, List.append_nil, ht.hostWrote] at this
      rw [hbuf, hfifo, List.append_nil, List.append_nil, this] at hrest
      exact ⟨rest, hrest, hlt⟩

end

/-- Nine bytes of the host, of which eight have come to a client as a chunk. -/
theorem link_delivers_nineBytes :
    ∃ s : Link eightBytes, (link eightBytes 64).Reachable s ∧
      s.boardTook = [0x0807060504030201] ∧ s.toFpga = [9] ∧ s.Delivers 64 := by
  have h0 : (link eightBytes 64).Reachable _ := .init ⟨⟨fun _ => {}, none, false⟩, rfl⟩
  have h1 := h0.step ⟨.initializeC true true, rfl, trivial, rfl⟩
  have h2 := h1.step ⟨.openCChannel, rfl, trivial, rfl⟩
  have h3 := h2.step ⟨.hostWrite [1, 2, 3, 4, 5, 6, 7, 8, 9], ⟨rfl, rfl⟩, trivial, rfl⟩
  have h4 := h3.step ⟨.push 9, ⟨rfl, by decide, by decide⟩, trivial, rfl⟩
  have h5 := h4.step ⟨.readBdpi ⟨true, .ready (.bytes [1, 2, 3, 4, 5, 6, 7, 8])⟩,
    ⟨rfl, rfl, by decide, ⟨rfl, by decide, by decide, ⟨[9], rfl⟩⟩⟩, trivial, rfl⟩
  have h6 := h5.step ⟨.transferRead, ⟨by decide, by decide⟩, trivial, rfl⟩
  have h7 := h6.step ⟨.deq, List.cons_ne_nil _ _, trivial, rfl⟩
  exact ⟨_, h7, by decide, rfl, link_delivers (by decide) h7⟩

end UnixPipe

end LeapPlatforms
