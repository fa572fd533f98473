import LeapPlatforms.Foundation.Bytes
import LeapPlatforms.Umf.Header

/-!
# UMF messages

A message is a buffer of bytes with a length and two indices. Clients append and extract values of
several types at these indices; a channel sends the header and all chunks, and whoever receives them
appends chunks to a message of its own. The host is little-endian.

Every access to the buffer is checked here, and so are the assertions, which the source leaves out
of builds that do not debug. `CheckExtractSanity` only warns.

## Main definitions

* `Fault`, `Message` — a message, and what can go wrong
* the append and extract methods, `extractAllChunks`, `receive`
* `Item` — one typed append, with the extract that matches it

## Main results

* `Message.append_bytes`, `Message.extract_bytes` — one access, as bytes
* `appendAll_eq`, `extractAll_eq`
* `extractAllChunks_eq`, `receiveChunks_eq`
* `message_round_trip`, `framing_fails`
-/

namespace LeapPlatforms

namespace Umf

open Bytes

variable {P : Params}

/-- What can go wrong. -/
inductive Fault
  /-- `ASSERT`: an append past the length. -/
  | overflow
  /-- `VERIFYX`: an extract of chunks that does not end where the message does. -/
  | verify
  /-- An access outside the buffer. -/
  | outside
  /-- `CallbackExit`. -/
  | exit
  deriving DecidableEq

variable (P) in
/-- `UMF_MESSAGE_CLASS`. -/
structure Message extends HeaderInfo P where
  /-- `message`. -/
  message : List Byte
  /-- The size of the buffer. -/
  message_length : message.length = P.maxMsgBytes
  /-- `readIndex`. -/
  readIndex : ℕ
  /-- `writeIndex`. -/
  writeIndex : ℕ

/-- A number of bytes, rounded up to chunks by clearing the low bits. -/
def roundUp (chunkBytes n : ℕ) : ℕ := n + (chunkBytes - 1) - (n + (chunkBytes - 1)) % chunkBytes

namespace Message

variable (m : Message P)

/-- `GetLength`. -/
def getLength : ℕ := m.length.toNat

/-! ### Appending -/

/-- `StartAppend`. -/
def startAppend : Message P := { m with writeIndex := 0 }

/-- `CanAppend`. -/
def canAppend : Bool := m.writeIndex < m.getLength

/-- Some bytes are stored at the write index. -/
def store (data : List Byte) : Except Fault (Message P) :=
  if m.writeIndex + data.length ≤ m.getLength then
    if h : m.writeIndex + data.length ≤ m.message.length then
      .ok { m with
        message := overwrite m.message m.writeIndex data
        message_length := (length_overwrite h).trans m.message_length
        writeIndex := m.writeIndex + data.length }
    else .error .outside
  else .error .overflow

/-- `AppendBytes`. -/
def appendBytes (data : List Byte) : Except Fault (Message P) := m.store data

/-- `AppendUINT8`. -/
def appendUINT8 (data : BitVec 8) : Except Fault (Message P) := m.store (toBytes 1 data)

/-- `AppendUINT16`. -/
def appendUINT16 (data : BitVec 16) : Except Fault (Message P) := m.store (toBytes 2 data)

/-- `AppendUINT32`. -/
def appendUINT32 (data : BitVec 32) : Except Fault (Message P) := m.store (toBytes 4 data)

/-- `AppendUINT64`. -/
def appendUINT64 (data : BitVec 64) : Except Fault (Message P) := m.store (toBytes 8 data)

/-- `AppendChunk`. -/
def appendChunk (chunk : Chunk P) : Except Fault (Message P) := m.store (toBytes P.chunkBytes chunk)

/-- `AppendChunks`. -/
def appendChunks (chunks : List (Chunk P)) : Except Fault (Message P) :=
  m.appendBytes (chunks.flatMap (toBytes P.chunkBytes))

/-! ### Extracting -/

/-- `StartExtract`. -/
def startExtract : Message P := { m with readIndex := 0 }

/-- `CanExtract`. -/
def canExtract (nbytes : ℕ) : Bool := m.readIndex + nbytes ≤ m.writeIndex

/-- Some bytes are loaded from the read index. -/
def load (nbytes : ℕ) : Except Fault (List Byte × Message P) :=
  if m.readIndex + nbytes ≤ m.message.length then
    .ok ((m.message.drop m.readIndex).take nbytes, { m with readIndex := m.readIndex + nbytes })
  else .error .outside

/-- A word is loaded. -/
def loadWord (nbytes : ℕ) : Except Fault (BitVec (8 * nbytes) × Message P) :=
  (m.load nbytes).map fun x => (ofBytes nbytes x.1, x.2)

/-- `ExtractBytes`. -/
def extractBytes (nbytes : ℕ) : Except Fault (List Byte × Message P) := m.load nbytes

/-- `ExtractUINT8`. -/
def extractUINT8 : Except Fault (BitVec 8 × Message P) := m.loadWord 1

/-- `ExtractUINT16`. -/
def extractUINT16 : Except Fault (BitVec 16 × Message P) := m.loadWord 2

/-- `ExtractUINT32`. -/
def extractUINT32 : Except Fault (BitVec 32 × Message P) := m.loadWord 4

/-- `ExtractUINT64`. -/
def extractUINT64 : Except Fault (BitVec 64 × Message P) := m.loadWord 8

/-- `ExtractChunk`. -/
def extractChunk : Except Fault (Chunk P × Message P) := m.loadWord P.chunkBytes

/-- The chunks that some bytes are. -/
def chunksOf : ℕ → List Byte → List (Chunk P)
  | 0, _ => []
  | n + 1, l => ofBytes P.chunkBytes (l.take P.chunkBytes) :: chunksOf n (l.drop P.chunkBytes)

/-- `ExtractChunks`. -/
def extractChunks (nchunks : ℕ) : Except Fault (List (Chunk P) × Message P) :=
  if nchunks * P.chunkBytes + m.readIndex = roundUp P.chunkBytes m.getLength then
    (m.load (nchunks * P.chunkBytes)).map fun x => (chunksOf nchunks x.1, x.2)
  else .error .verify

theorem readIndex_of_load {m m' : Message P} {n : ℕ} {l : List Byte} (h : m.load n = .ok (l, m')) :
    m'.readIndex = m.readIndex + n ∧ m'.writeIndex = m.writeIndex := by
  rw [load] at h
  split at h
  · cases h
    exact ⟨rfl, rfl⟩
  · cases h

theorem chunkBytes_pos : 0 < P.chunkBytes := by
  have hcases := P.chunkBytes_cases
  omega

/-- The loop of `ExtractAllChunks`. -/
def extractLoop (m : Message P) : Except Fault (List (Chunk P) × Message P) :=
  if m.canExtract 1 then
    match _h : m.extractChunk with
    | .error e => .error e
    | .ok (chunk, m') => (extractLoop m').map fun x => (chunk :: x.1, x.2)
  else .ok ([], m)
termination_by m.writeIndex - m.readIndex
decreasing_by
  have hpos := chunkBytes_pos (P := P)
  rw [extractChunk, loadWord] at _h
  cases hload : m.load P.chunkBytes with
  | error e =>
    rw [hload] at _h
    cases _h
  | ok x =>
    rw [hload] at _h
    obtain ⟨hread, hwrite⟩ := readIndex_of_load hload
    have hm : x.2 = m' := congrArg Prod.snd (Except.ok.inj _h)
    rw [← hm, hread, hwrite]
    have hcan : m.readIndex + 1 ≤ m.writeIndex := by simpa [canExtract] using ‹m.canExtract 1 = true›
    omega

/-- `ExtractAllChunks`. -/
def extractAllChunks : Except Fault (List (Chunk P) × Message P) := m.startExtract.extractLoop

/-! ### Receiving -/

/-- `DecodeHeader`. -/
def decode (chunk : Chunk P) : Except Fault (Message P) :=
  match decodeHeader chunk with
  | none => .error .exit
  | some h => .ok { m with toHeaderInfo := h }

/-- Chunks are appended while that is possible; what is left of the stream is returned. -/
def receiveChunks (m : Message P) : List (Chunk P) → Except Fault (List (Chunk P) × Message P)
  | [] => .ok ([], m)
  | chunk :: rest =>
    if m.canAppend then (m.appendChunk chunk).bind fun m' => receiveChunks m' rest
    else .ok (chunk :: rest, m)

/-- A header and then chunks are received. -/
def receive (header : Chunk P) (stream : List (Chunk P)) :
    Except Fault (List (Chunk P) × Message P) :=
  (m.decode header).bind fun m' => m'.startAppend.receiveChunks stream

end Message

/-! ### Typed values -/

variable (P) in
/-- A value that is appended. -/
inductive Item
  | bytes (data : List Byte)
  | uint8 (data : BitVec 8)
  | uint16 (data : BitVec 16)
  | uint32 (data : BitVec 32)
  | uint64 (data : BitVec 64)
  | chunk (data : Chunk P)
  | chunks (data : List (Chunk P))

namespace Item

/-- A value in memory. -/
def toMemory : Item P → List Byte
  | bytes data => data
  | uint8 data => toBytes 1 data
  | uint16 data => toBytes 2 data
  | uint32 data => toBytes 4 data
  | uint64 data => toBytes 8 data
  | chunk data => toBytes P.chunkBytes data
  | chunks data => data.flatMap (toBytes P.chunkBytes)

/-- The append of a value. -/
def append (m : Message P) : Item P → Except Fault (Message P)
  | bytes data => m.appendBytes data
  | uint8 data => m.appendUINT8 data
  | uint16 data => m.appendUINT16 data
  | uint32 data => m.appendUINT32 data
  | uint64 data => m.appendUINT64 data
  | chunk data => m.appendChunk data
  | chunks data => m.appendChunks data

/-- The extract that matches the append of a value: of the same type, and as many. -/
def extract (m : Message P) : Item P → Except Fault (Item P × Message P)
  | bytes data => (m.extractBytes data.length).map fun x => (bytes x.1, x.2)
  | uint8 _ => m.extractUINT8.map fun x => (uint8 x.1, x.2)
  | uint16 _ => m.extractUINT16.map fun x => (uint16 x.1, x.2)
  | uint32 _ => m.extractUINT32.map fun x => (uint32 x.1, x.2)
  | uint64 _ => m.extractUINT64.map fun x => (uint64 x.1, x.2)
  | chunk _ => m.extractChunk.map fun x => (chunk x.1, x.2)
  | chunks data => (m.extractChunks data.length).map fun x => (chunks x.1, x.2)

end Item

/-- Values are appended, one after another. -/
def appendAll (m : Message P) : List (Item P) → Except Fault (Message P)
  | [] => .ok m
  | i :: items => (i.append m).bind fun m' => appendAll m' items

/-- Values are extracted, one after another. -/
def extractAll (m : Message P) : List (Item P) → Except Fault (List (Item P) × Message P)
  | [] => .ok ([], m)
  | i :: items => (i.extract m).bind fun x => (extractAll x.2 items).map fun y => (x.1 :: y.1, y.2)

/-! ### Appends -/

variable {m : Message P}

theorem Item.append_eq (i : Item P) : i.append m = m.store i.toMemory := by
  cases i <;> rfl

/-- Some values in memory. -/
def memory (items : List (Item P)) : List Byte := items.flatMap Item.toMemory

@[simp] theorem memory_nil : memory ([] : List (Item P)) = [] := rfl

@[simp] theorem memory_cons (i : Item P) (items : List (Item P)) :
    memory (i :: items) = i.toMemory ++ memory items := rfl

/-- A store within the length is done, and leaves what there was. -/
theorem Message.store_eq (data : List Byte) (hlen : m.writeIndex + data.length ≤ m.getLength)
    (hmax : m.getLength ≤ P.maxMsgBytes) :
    ∃ m', m.store data = .ok m' ∧ m'.toHeaderInfo = m.toHeaderInfo ∧
      m'.writeIndex = m.writeIndex + data.length ∧
      m'.message.take m'.writeIndex = m.message.take m.writeIndex ++ data := by
  have hroom : m.writeIndex + data.length ≤ m.message.length := by
    rw [m.message_length]
    omega
  rw [Message.store, if_pos hlen, dif_pos hroom]
  exact ⟨_, rfl, rfl, rfl, take_overwrite (by omega)⟩

/-- Values that fit are appended. -/
theorem appendAll_eq (items : List (Item P))
    (hlen : m.writeIndex + (memory items).length ≤ m.getLength)
    (hmax : m.getLength ≤ P.maxMsgBytes) :
    ∃ m', appendAll m items = .ok m' ∧ m'.toHeaderInfo = m.toHeaderInfo ∧
      m'.writeIndex = m.writeIndex + (memory items).length ∧
      m'.message.take m'.writeIndex = m.message.take m.writeIndex ++ memory items := by
  induction items generalizing m with
  | nil => exact ⟨m, rfl, rfl, rfl, (List.append_nil _).symm⟩
  | cons i items ih =>
    rw [memory_cons, List.length_append] at hlen
    obtain ⟨m₁, hstore, hinfo₁, hwrite₁, htake₁⟩ := m.store_eq i.toMemory (by omega) hmax
    have hlength : m₁.getLength = m.getLength := by
      rw [Message.getLength, hinfo₁, Message.getLength]
    obtain ⟨m₂, happend, hinfo₂, hwrite₂, htake₂⟩ :=
      ih (m := m₁) (by rw [hwrite₁, hlength]; omega) (by rw [hlength]; exact hmax)
    refine ⟨m₂, ?_, hinfo₂.trans hinfo₁, ?_, ?_⟩
    · rw [appendAll, i.append_eq, hstore]
      exact happend
    · rw [hwrite₂, hwrite₁, memory_cons, List.length_append, Nat.add_assoc]
    · rw [htake₂, htake₁, memory_cons, List.append_assoc]

/-! ### Extracts -/

/-- A load of what was written. -/
theorem Message.load_eq {pre data post : List Byte}
    (htake : m.message.take m.writeIndex = pre ++ (data ++ post)) (hread : m.readIndex = pre.length)
    (hwrite : m.writeIndex ≤ P.maxMsgBytes) :
    m.load data.length = .ok (data, { m with readIndex := m.readIndex + data.length }) := by
  have hlen := congrArg List.length htake
  rw [List.length_take, m.message_length, Nat.min_eq_left hwrite, List.length_append,
    List.length_append] at hlen
  have hroom : m.readIndex + data.length ≤ m.message.length := by
    rw [m.message_length]
    omega
  rw [Message.load, if_pos hroom, take_drop_of_take (w := m.writeIndex) (by omega), htake, hread,
    List.drop_left, List.take_left]

theorem Message.loadWord_eq {pre post : List Byte} {n : ℕ} {x : BitVec (8 * n)}
    (htake : m.message.take m.writeIndex = pre ++ (toBytes n x ++ post))
    (hread : m.readIndex = pre.length) (hwrite : m.writeIndex ≤ P.maxMsgBytes) :
    m.loadWord n = .ok (x, { m with readIndex := m.readIndex + n }) := by
  have hload := m.load_eq htake hread hwrite
  rw [length_toBytes] at hload
  rw [Message.loadWord, hload]
  show Except.ok (ofBytes n (toBytes n x), _) = _
  rw [ofBytes_toBytes]

theorem length_flatMap_toBytes (l : List (Chunk P)) :
    (l.flatMap (toBytes P.chunkBytes)).length = l.length * P.chunkBytes := by
  induction l with
  | nil => rw [List.flatMap_nil, List.length_nil, List.length_nil, Nat.zero_mul]
  | cons c l ih =>
    rw [List.flatMap_cons, List.length_append, length_toBytes, ih, List.length_cons, Nat.add_mul,
      Nat.one_mul, Nat.add_comm]

theorem Message.chunksOf_flatMap (l : List (Chunk P)) :
    Message.chunksOf l.length (l.flatMap (toBytes P.chunkBytes)) = l := by
  induction l with
  | nil => rfl
  | cons c l ih =>
    have hlen : (toBytes P.chunkBytes c).length = P.chunkBytes := length_toBytes _ _
    rw [List.flatMap_cons, List.length_cons, Message.chunksOf, List.take_left' hlen,
      List.drop_left' hlen, ofBytes_toBytes, ih]

/-- Where an array of chunks may be extracted: it ends where the message does. -/
def Item.Ends (length : ℕ) (readIndex : ℕ) : Item P → Prop
  | .chunks l => l.length * P.chunkBytes + readIndex = roundUp P.chunkBytes length
  | _ => True

/-- The extract that matches an append. -/
theorem Item.extract_eq {i : Item P} (pre : List Byte) {post : List Byte}
    (htake : m.message.take m.writeIndex = pre ++ (i.toMemory ++ post))
    (hread : m.readIndex = pre.length) (hwrite : m.writeIndex ≤ P.maxMsgBytes)
    (hends : i.Ends m.getLength m.readIndex) :
    i.extract m = .ok (i, { m with readIndex := m.readIndex + i.toMemory.length }) := by
  cases i with
  | bytes data =>
    have hload := m.load_eq htake hread hwrite
    rw [toMemory] at hload
    rw [extract, Message.extractBytes, hload]
    rfl
  | uint8 x => rw [extract, Message.extractUINT8, m.loadWord_eq htake hread hwrite]; rfl
  | uint16 x => rw [extract, Message.extractUINT16, m.loadWord_eq htake hread hwrite]; rfl
  | uint32 x => rw [extract, Message.extractUINT32, m.loadWord_eq htake hread hwrite]; rfl
  | uint64 x => rw [extract, Message.extractUINT64, m.loadWord_eq htake hread hwrite]; rfl
  | chunk x =>
    rw [extract, Message.extractChunk, m.loadWord_eq htake hread hwrite, toMemory, length_toBytes]
    rfl
  | chunks l =>
    have hload := m.load_eq htake hread hwrite
    rw [toMemory] at hload
    rw [Ends] at hends
    rw [extract, Message.extractChunks, if_pos hends, ← length_flatMap_toBytes, hload]
    show Except.ok (chunks (Message.chunksOf l.length (l.flatMap (toBytes P.chunkBytes))), _) = _
    rw [Message.chunksOf_flatMap]
    rfl

/-- The extracts that match some appends. -/
theorem extractAll_eq {items : List (Item P)} (pre : List Byte)
    (htake : m.message.take m.writeIndex = pre ++ memory items) (hread : m.readIndex = pre.length)
    (hwrite : m.writeIndex ≤ P.maxMsgBytes)
    (hends : ∀ before i after, items = before ++ i :: after →
      i.Ends m.getLength (m.readIndex + (memory before).length)) :
    extractAll m items =
      .ok (items, { m with readIndex := m.readIndex + (memory items).length }) := by
  induction items generalizing m pre with
  | nil => rfl
  | cons i items ih =>
    have hextract := i.extract_eq pre (by rw [htake, memory_cons]) hread hwrite
      (hends [] i items rfl)
    have hrest := ih (m := { m with readIndex := m.readIndex + i.toMemory.length })
      (pre ++ i.toMemory) (by rw [List.append_assoc, ← memory_cons]; exact htake)
      (by rw [List.length_append, ← hread]) hwrite (fun before j after heq => by
        have hj := hends (i :: before) j after (by rw [heq, List.cons_append])
        rw [memory_cons, List.length_append, ← Nat.add_assoc] at hj
        exact hj)
    rw [extractAll, hextract]
    show (extractAll _ items).map _ = _
    rw [hrest]
    show Except.ok (i :: items, _) = _
    rw [memory_cons, List.length_append, Nat.add_assoc]

/-! ### Chunks -/

theorem Message.length_chunksOf (n : ℕ) (l : List Byte) :
    (Message.chunksOf n l : List (Chunk P)).length = n := by
  induction n generalizing l with
  | zero => rfl
  | succ n ih => rw [Message.chunksOf, List.length_cons, ih]

/-- The bytes of the chunks that some bytes are. -/
theorem Message.flatMap_chunksOf {n : ℕ} {l : List Byte} (h : n * P.chunkBytes ≤ l.length) :
    (Message.chunksOf n l : List (Chunk P)).flatMap (toBytes P.chunkBytes) =
      l.take (n * P.chunkBytes) := by
  induction n generalizing l with
  | zero => rw [Nat.zero_mul, List.take_zero, Message.chunksOf, List.flatMap_nil]
  | succ n ih =>
    rw [Nat.add_mul, Nat.one_mul] at h
    have hlen : (l.take P.chunkBytes).length = P.chunkBytes := by
      rw [List.length_take]
      omega
    rw [Message.chunksOf, List.flatMap_cons, toBytes_ofBytes hlen,
      ih (by rw [List.length_drop]; omega), Nat.add_mul, Nat.one_mul, Nat.add_comm, List.take_add]

theorem Message.extractLoop_chunk {m' : Message P} {chunk : Chunk P}
    (hcan : m.readIndex + 1 ≤ m.writeIndex) (hchunk : m.extractChunk = .ok (chunk, m')) :
    m.extractLoop = m'.extractLoop.map fun x => (chunk :: x.1, x.2) := by
  rw [Message.extractLoop, if_pos]
  · split
    · next e herr =>
      rw [hchunk] at herr
      cases herr
    · next chunk' m'' hok =>
      rw [hchunk] at hok
      cases hok
      rfl
  · rw [Message.canExtract]
    simpa using hcan

theorem Message.extractLoop_error {e : Fault} (hcan : m.readIndex + 1 ≤ m.writeIndex)
    (hchunk : m.extractChunk = .error e) : m.extractLoop = .error e := by
  rw [Message.extractLoop, if_pos]
  · split
    · next e' herr =>
      rw [hchunk] at herr
      cases herr
      rfl
    · next chunk' m'' hok =>
      rw [hchunk] at hok
      cases hok
  · rw [Message.canExtract]
    simpa using hcan

/-- The loop of `ExtractAllChunks` takes `n` chunks, when they reach just past what was written. -/
theorem Message.extractLoop_eq {n : ℕ} (hhi : m.writeIndex ≤ m.readIndex + n * P.chunkBytes)
    (hlo : ∀ k < n, m.readIndex + k * P.chunkBytes < m.writeIndex)
    (hroom : m.readIndex + n * P.chunkBytes ≤ P.maxMsgBytes) :
    m.extractLoop = .ok (Message.chunksOf n (m.message.drop m.readIndex),
      { m with readIndex := m.readIndex + n * P.chunkBytes }) := by
  induction n generalizing m with
  | zero =>
    rw [Message.extractLoop, if_neg]
    · rw [Nat.zero_mul]
      rfl
    · rw [Message.canExtract]
      simp only [decide_eq_true_eq]
      omega
  | succ n ih =>
    rw [Nat.add_mul, Nat.one_mul] at hhi hroom
    have hfirst := hlo 0 (Nat.succ_pos n)
    rw [Nat.zero_mul, Nat.add_zero] at hfirst
    have hload : m.extractChunk = .ok (ofBytes P.chunkBytes ((m.message.drop m.readIndex).take
        P.chunkBytes), { m with readIndex := m.readIndex + P.chunkBytes }) := by
      rw [Message.extractChunk, Message.loadWord, Message.load, if_pos]
      · rfl
      · rw [m.message_length]
        omega
    have hrest := ih (m := { m with readIndex := m.readIndex + P.chunkBytes })
      (by show m.writeIndex ≤ m.readIndex + P.chunkBytes + n * P.chunkBytes; omega)
      (fun k hk => by
        have hk' := hlo (k + 1) (by omega)
        rw [Nat.add_mul, Nat.one_mul] at hk'
        show m.readIndex + P.chunkBytes + k * P.chunkBytes < m.writeIndex
        omega)
      (by show m.readIndex + P.chunkBytes + n * P.chunkBytes ≤ P.maxMsgBytes; omega)
    rw [Message.extractLoop_chunk (by omega) hload, hrest]
    show Except.ok (_ :: Message.chunksOf n (m.message.drop (m.readIndex + P.chunkBytes)), _) = _
    rw [Message.chunksOf, List.drop_drop, Nat.add_mul, Nat.one_mul, Nat.add_comm (n * _),
      ← Nat.add_assoc]

/-- The number of chunks that cover some bytes. -/
def chunkCount (P : Params) (n : ℕ) : ℕ := (n + (P.chunkBytes - 1)) / P.chunkBytes

theorem le_chunkCount (n : ℕ) : n ≤ chunkCount P n * P.chunkBytes := by
  have hpos := Message.chunkBytes_pos (P := P)
  have hdiv := Nat.div_add_mod' (n + (P.chunkBytes - 1)) P.chunkBytes
  have hmod := Nat.mod_lt (n + (P.chunkBytes - 1)) hpos
  rw [chunkCount]
  omega

theorem lt_of_lt_chunkCount {n k : ℕ} (h : k < chunkCount P n) : k * P.chunkBytes < n := by
  have hpos := Message.chunkBytes_pos (P := P)
  have hmul := Nat.mul_le_mul_right P.chunkBytes (Nat.succ_le_of_lt h)
  have hdiv := Nat.div_mul_le_self (n + (P.chunkBytes - 1)) P.chunkBytes
  rw [chunkCount, Nat.succ_eq_add_one, Nat.add_mul, Nat.one_mul] at hmul
  omega

theorem chunkCount_mul_le {n max : ℕ} (hdvd : P.chunkBytes ∣ max) (h : n ≤ max) :
    chunkCount P n * P.chunkBytes ≤ max := by
  obtain ⟨k, rfl⟩ := hdvd
  have hpos := Message.chunkBytes_pos (P := P)
  have hle : chunkCount P n ≤ k := by
    by_contra hlt
    have hmul := lt_of_lt_chunkCount (Nat.lt_of_not_le hlt)
    rw [Nat.mul_comm] at hmul
    omega
  rw [Nat.mul_comm]
  exact Nat.mul_le_mul_left _ hle

/-- All chunks are extracted, the last one past what was written, but in the buffer. -/
theorem Message.extractAllChunks_eq (hdvd : P.chunkBytes ∣ P.maxMsgBytes)
    (hwrite : m.writeIndex ≤ P.maxMsgBytes) :
    m.extractAllChunks = .ok (Message.chunksOf (chunkCount P m.writeIndex) m.message,
      { m with readIndex := chunkCount P m.writeIndex * P.chunkBytes }) := by
  have hloop := Message.extractLoop_eq (m := m.startExtract) (n := chunkCount P m.writeIndex)
    (by show m.writeIndex ≤ 0 + _; rw [Nat.zero_add]; exact le_chunkCount _)
    (fun k hk => by
      show 0 + k * P.chunkBytes < m.writeIndex
      rw [Nat.zero_add]
      exact lt_of_lt_chunkCount hk)
    (by show 0 + _ ≤ _; rw [Nat.zero_add]; exact chunkCount_mul_le hdvd hwrite)
  have hzero : m.startExtract.readIndex = 0 := rfl
  rw [Message.extractAllChunks, hloop, hzero, List.drop_zero, Nat.zero_add]
  rfl

/-- As many chunks as there is length for are received, and no more. -/
theorem Message.receiveChunks_eq {l : List (Chunk P)}
    (hlen : m.writeIndex + l.length * P.chunkBytes = m.getLength)
    (hmax : m.getLength ≤ P.maxMsgBytes) (rest : List (Chunk P)) :
    ∃ m', m.receiveChunks (l ++ rest) = .ok (rest, m') ∧ m'.toHeaderInfo = m.toHeaderInfo ∧
      m'.writeIndex = m.getLength ∧
      m'.message.take m'.writeIndex =
        m.message.take m.writeIndex ++ l.flatMap (toBytes P.chunkBytes) := by
  induction l generalizing m with
  | nil =>
    rw [List.length_nil, Nat.zero_mul, Nat.add_zero] at hlen
    refine ⟨m, ?_, rfl, hlen, by simp⟩
    cases rest with
    | nil => rfl
    | cons c rest =>
      rw [List.nil_append, Message.receiveChunks, if_neg]
      rw [Message.canAppend, hlen]
      simp
  | cons c l ih =>
    have hpos := Message.chunkBytes_pos (P := P)
    rw [List.length_cons, Nat.add_mul, Nat.one_mul] at hlen
    obtain ⟨m₁, hstore, hinfo₁, hwrite₁, htake₁⟩ :=
      m.store_eq (toBytes P.chunkBytes c) (by rw [length_toBytes]; omega) hmax
    have hlength : m₁.getLength = m.getLength := by
      rw [Message.getLength, hinfo₁, Message.getLength]
    rw [length_toBytes] at hwrite₁
    obtain ⟨m₂, hreceive, hinfo₂, hwrite₂, htake₂⟩ :=
      ih (m := m₁) (by rw [hwrite₁, hlength]; omega) (by rw [hlength]; exact hmax)
    refine ⟨m₂, ?_, hinfo₂.trans hinfo₁, hwrite₂.trans hlength, ?_⟩
    · have hcan : m.canAppend = true := by
        rw [Message.canAppend]
        simp only [decide_eq_true_eq]
        omega
      rw [List.cons_append, Message.receiveChunks, if_pos hcan, Message.appendChunk, hstore]
      exact hreceive
    · rw [htake₂, htake₁, List.flatMap_cons, List.append_assoc]

/-! ### The header -/

/-- The header announces the length in chunks, whatever the other fields are. -/
theorem HeaderInfo.numChunks_encodeHeader {h : HeaderInfo P}
    (hlt : chunkCount P h.length.toNat < 2 ^ P.msgLengthBits) :
    h.encodeHeader.toNat % 2 ^ P.msgLengthBits = chunkCount P h.length.toNat := by
  have hbits : P.msgLengthBits ≤ chunkBits P := by
    have hle : P.phyChannelReservedBits + (P.channelIDBits + (P.serviceIDBits + (P.methodIDBits +
      P.msgLengthBits))) ≤ chunkBits P := P.bits_le
    omega
  have hnum : ((numChunks P.chunkBytes h.length).setWidth (chunkBits P)).toNat =
      chunkCount P h.length.toNat := by
    rw [HeaderInfo.toNat_extend, toNat_numChunks, chunkCount]
  rw [HeaderInfo.encodeHeader, HeaderInfo.encodeHeaderWithPhyChannelPvt,
    BitFields.toNat_shiftLeft_or_mod hbits (by rw [hnum]; exact hlt), hnum]

/-- Whoever decodes the header knows the length, rounded up. -/
theorem Message.decode_encodeHeader {h : HeaderInfo P}
    (hlt : chunkCount P h.length.toNat < 2 ^ P.msgLengthBits)
    (hle : chunkCount P h.length.toNat * P.chunkBytes ≤ P.maxMsgBytes) (r : Message P) :
    ∃ r', r.decode h.encodeHeader = .ok r' ∧
      r'.getLength = chunkCount P h.length.toNat * P.chunkBytes := by
  have hd : IsDigits P h.encodeHeader.toNat _ _ _ _ (chunkCount P h.length.toNat) :=
    ⟨HeaderInfo.numChunks_encodeHeader hlt, rfl, rfl, rfl, rfl⟩
  rw [Nat.mul_comm] at hle
  obtain ⟨d, hdecode⟩ := exists_decodeHeader hd hle
  obtain ⟨_, _, _, _, _, hlength⟩ := decodeHeader_digits hdecode hd
  refine ⟨{ r with toHeaderInfo := d }, ?_, ?_⟩
  · rw [Message.decode, hdecode]
  · show d.length.toNat = _
    rw [hlength, toNat_length_digits hle, Nat.mul_comm]

/-! ### Messages -/

/-- A message of which every chunk is written is received as it was sent. -/
theorem Message.receive_eq (hdvd : P.chunkBytes ∣ P.maxMsgBytes)
    (hfits : P.maxMsgBytes / P.chunkBytes < 2 ^ P.msgLengthBits)
    (hmax : m.getLength ≤ P.maxMsgBytes) (r : Message P) (rest : List (Chunk P)) :
    ∃ r', r.receive m.encodeHeader
        (Message.chunksOf (chunkCount P m.getLength) m.message ++ rest) = .ok (rest, r') ∧
      r'.getLength = chunkCount P m.getLength * P.chunkBytes ∧ r'.writeIndex = r'.getLength ∧
      r'.message.take r'.writeIndex = m.message.take r'.writeIndex := by
  have hpos := Message.chunkBytes_pos (P := P)
  have hround := chunkCount_mul_le hdvd hmax
  have hcount : chunkCount P m.length.toNat < 2 ^ P.msgLengthBits := by
    refine Nat.lt_of_le_of_lt ?_ hfits
    rw [Nat.le_div_iff_mul_le hpos]
    exact hround
  obtain ⟨r₁, hdecode, hlength⟩ := Message.decode_encodeHeader hcount hround r
  obtain ⟨r₂, hreceive, hinfo, hwrite, htake⟩ :=
    Message.receiveChunks_eq (m := r₁.startAppend)
      (l := Message.chunksOf (chunkCount P m.getLength) m.message)
      (by
        rw [Message.length_chunksOf]
        exact (Nat.zero_add _).trans hlength.symm)
      (hlength.trans_le hround) rest
  have hlength₂ : r₂.getLength = r₁.getLength := by
    rw [Message.getLength, hinfo]
    rfl
  refine ⟨r₂, ?_, hlength₂.trans hlength, hwrite.trans hlength₂.symm, ?_⟩
  · rw [Message.receive, hdecode]
    exact hreceive
  · have hwrite₂ : r₂.writeIndex = chunkCount P m.getLength * P.chunkBytes := hwrite.trans hlength
    have hroom : chunkCount P m.getLength * P.chunkBytes ≤ m.message.length := by
      rw [m.message_length]
      exact hround
    rw [htake, Message.flatMap_chunksOf hroom, hwrite₂]
    rfl

/-- **Message round trip.** Values that fit are appended and extracted again, where an array of
chunks ends with the message; and a message whose last chunk is begun is sent in as many chunks as
its header announces, which is what a receiver takes. -/
theorem message_round_trip (hdvd : P.chunkBytes ∣ P.maxMsgBytes)
    (hfits : P.maxMsgBytes / P.chunkBytes < 2 ^ P.msgLengthBits) {items : List (Item P)}
    (htotal : (memory items).length ≤ m.getLength) (hmax : m.getLength ≤ P.maxMsgBytes)
    (hends : ∀ before l after, items = before ++ .chunks l :: after →
      l.length * P.chunkBytes + (memory before).length = roundUp P.chunkBytes m.getLength) :
    ∃ m₁, appendAll m.startAppend items = .ok m₁ ∧ m₁.writeIndex = (memory items).length ∧
      (∃ m₂, extractAll m₁.startExtract items = .ok (items, m₂) ∧ m₂.readIndex = m₂.writeIndex) ∧
      (chunkCount P (memory items).length = chunkCount P m.getLength → ∃ chunks m₃,
        m₁.extractAllChunks = .ok (chunks, m₃) ∧ chunks.length = chunkCount P m.getLength ∧
        (unpack m₁.encodeHeader).numChunks.toNat = chunkCount P m.getLength ∧
        ∀ (r : Message P) rest, ∃ r', r.receive m₁.encodeHeader (chunks ++ rest) = .ok (rest, r') ∧
          r'.getLength = chunkCount P m.getLength * P.chunkBytes ∧ r'.writeIndex = r'.getLength ∧
          r'.message.take (memory items).length = memory items) := by
  obtain ⟨m₁, happend, hinfo, hwrite, htake⟩ := appendAll_eq (m := m.startAppend) items
    (by show 0 + _ ≤ m.getLength; omega) hmax
  have hwrite₁ : m₁.writeIndex = (memory items).length := hwrite.trans (Nat.zero_add _)
  have htake₁ : m₁.message.take m₁.writeIndex = memory items := htake
  have hlength : m₁.getLength = m.getLength := by
    rw [Message.getLength, hinfo]
    rfl
  have hle : m₁.writeIndex ≤ P.maxMsgBytes := by
    rw [hwrite₁]
    omega
  refine ⟨m₁, happend, hwrite₁, ?_, fun hcomplete => ?_⟩
  · have hextract := extractAll_eq (m := m₁.startExtract) [] htake₁ rfl hle
      (fun before i after heq => by
        cases i with
        | chunks l =>
          show l.length * P.chunkBytes + (0 + (memory before).length) = roundUp _ m₁.getLength
          rw [hlength, Nat.zero_add]
          exact hends before l after heq
        | _ => trivial)
    refine ⟨_, hextract, ?_⟩
    show 0 + (memory items).length = m₁.writeIndex
    rw [hwrite₁, Nat.zero_add]
  · have hchunks := Message.extractAllChunks_eq hdvd hle
    rw [hwrite₁, hcomplete] at hchunks
    refine ⟨_, _, hchunks, Message.length_chunksOf _ _, ?_, fun r rest => ?_⟩
    · have hpos := Message.chunkBytes_pos (P := P)
      have hcount : chunkCount P m₁.length.toNat < 2 ^ P.msgLengthBits := by
        refine Nat.lt_of_le_of_lt ?_ hfits
        rw [Nat.le_div_iff_mul_le hpos]
        exact chunkCount_mul_le hdvd (hlength.trans_le hmax)
      rw [← (isDigits_unpack _).numChunks, HeaderInfo.numChunks_encodeHeader hcount]
      exact congrArg (chunkCount P) hlength
    · have hreceive := Message.receive_eq (m := m₁) hdvd hfits
        (hlength.trans_le hmax) r rest
      rw [hlength] at hreceive
      obtain ⟨r', hr', hlen', hwrite', htake'⟩ := hreceive
      refine ⟨r', hr', hlen', hwrite', ?_⟩
      have hcover : (memory items).length ≤ r'.writeIndex := by
        rw [hwrite', hlen', ← hcomplete]
        exact le_chunkCount _
      have hsame := congrArg (List.take (memory items).length) htake'
      rw [List.take_take, List.take_take, Nat.min_eq_left hcover] at hsame
      rw [hsame, ← hwrite₁, htake₁]

/-! ### Where framing fails -/

/-- The default widths, for messages of up to so many bytes. -/
def fourBytes (maxMsgBytes : ℕ) (h : maxMsgBytes < 2 ^ 31) : Params where
  chunkBytes := 4
  chunkBytes_cases := Or.inl rfl
  maxMsgBytes := maxMsgBytes
  maxMsgBytes_lt := h
  phyChannelReservedBits := 6
  channelIDBits := 4
  serviceIDBits := 8
  methodIDBits := 4
  msgLengthBits := 10
  bits_le := Nat.le_refl 32
  bits_lt := widths_lt

/-- The default configuration. -/
abbrev defaults : Params := fourBytes 1024 maxMsgBytes_lt

/-- An empty message of some length. -/
def emptyMessage (P : Params) (length : BitVec 32) : Message P where
  channelID := 0
  serviceID := 0
  methodID := 0
  length := length
  phyPvt := 0
  header := 0
  message := List.replicate P.maxMsgBytes 0
  message_length := List.length_replicate
  readIndex := 0
  writeIndex := 0

/-- A message of seven bytes is sent in two chunks, and is received. -/
theorem message_round_trip_defaults :
    ∃ m₁, appendAll (emptyMessage defaults 7).startAppend
        [.uint16 0x1234, .uint8 0x56, .uint32 0x789abcde] = .ok m₁ ∧ m₁.writeIndex = 7 ∧
      ∃ chunks m₃, m₁.extractAllChunks = .ok (chunks, m₃) ∧ chunks.length = 2 := by
  obtain ⟨m₁, happend, hwrite, _, hsend⟩ := @message_round_trip defaults
    (emptyMessage defaults 7) (by decide) (by decide)
    [.uint16 0x1234, .uint8 0x56, .uint32 0x789abcde] (by decide) (by decide)
    (fun before l after heq => by
      rcases before with _ | ⟨_, _ | ⟨_, _ | ⟨_, _ | ⟨_, _⟩⟩⟩⟩ <;> simp at heq)
  obtain ⟨chunks, m₃, hextract, hlen, _⟩ := hsend rfl
  exact ⟨m₁, happend, hwrite, chunks, m₃, hextract, hlen⟩

/-- An array of chunks in front of another value is not extracted; of an incomplete message fewer
chunks are sent than the header announces; and the last chunk of a message is not in a buffer that
is not a whole number of chunks. -/
theorem framing_fails :
    (∃ m₁, appendAll (emptyMessage defaults 8).startAppend [.chunks [1], .uint32 2] = .ok m₁ ∧
      extractAll m₁.startExtract [.chunks [1], .uint32 2] = .error .verify) ∧
    (∃ m₁, appendAll (emptyMessage defaults 8).startAppend [.uint8 1] = .ok m₁ ∧
      (∃ chunks m₃, m₁.extractAllChunks = .ok (chunks, m₃) ∧ chunks.length = 1) ∧
      (unpack m₁.encodeHeader).numChunks.toNat = 2) ∧
    ∃ m₁ : Message (fourBytes 6 (by decide)), appendAll (emptyMessage _ 6).startAppend
        [.bytes [1, 2, 3, 4, 5, 6]] = .ok m₁ ∧ m₁.extractAllChunks = .error .outside := by
  refine ⟨?_, ?_, ?_⟩
  · obtain ⟨m₁, happend, hinfo, _, _⟩ := appendAll_eq (m := (emptyMessage defaults 8).startAppend)
      [.chunks [1], .uint32 2] (by decide) (by decide)
    refine ⟨m₁, happend, ?_⟩
    have hlength : m₁.startExtract.getLength = 8 := congrArg (fun h => h.length.toNat) hinfo
    have hverify : m₁.startExtract.extractChunks 1 = .error .verify := by
      rw [Message.extractChunks, hlength, if_neg]
      show ¬ (1 * 4 + 0 = roundUp 4 8)
      decide
    show (((m₁.startExtract.extractChunks 1).map _).bind _) = _
    rw [hverify]
    rfl
  · obtain ⟨m₁, happend, hinfo, hwrite, _⟩ := appendAll_eq
      (m := (emptyMessage defaults 8).startAppend) [.uint8 1] (by decide) (by decide)
    have hlength : m₁.length.toNat = 8 := congrArg (fun h => h.length.toNat) hinfo
    have hwrite₁ : m₁.writeIndex = 1 := hwrite
    refine ⟨m₁, happend, ⟨_, _, Message.extractAllChunks_eq (by decide)
      (by rw [hwrite₁]; decide), ?_⟩, ?_⟩
    · rw [Message.length_chunksOf, hwrite₁]
      rfl
    · rw [← (isDigits_unpack _).numChunks, HeaderInfo.numChunks_encodeHeader, hlength]
      · rfl
      · rw [hlength]
        decide
  · refine ⟨_, rfl, ?_⟩
    rw [Message.extractAllChunks, Message.extractLoop_chunk (by decide) rfl,
      Message.extractLoop_error (by decide) rfl]
    rfl

end Umf

end LeapPlatforms
