import LeapPlatforms.Foundation.QueuedRam
import LeapPlatforms.Foundation.Sharing
import LeapPlatforms.Foundation.TransitionSystem
import Mathlib.Data.BitVec

/-!
# Buffered DMA writes

The device puts the words of a DMA write into a block RAM, and tells the engine of the write when
they are all there; then it reads them back and hands them on. The next write may be buffered while
the last words of one are still on their way out of the RAM.

The index into the RAM has nine bits, and so has the register of the length: a write has up to 512
words.

## Main definitions

* `DmaStart`, `BufferedWrite`, `BufferedWrite.fire` — the rules, and what the user does
* `BufferedWrite.queued` — the words of the user for a write
* `BufferedWrite.Faithful` — what is said of a state
* `BufferedWrite.Sound` — the invariant

## Main results

* `BufferedWrite.Sound.fire`
* `BufferedWrite.work_decreases` — the rules come to an end
* `BufferedWrite.writes_faithful`
* `BufferedWrite.writes_mixed` — a write of 513 words
-/

namespace LeapPlatforms

namespace PcieCsr

open Sharing

/-! ### The device -/

/-- A DMA write. -/
structure DmaStart where
  addr : BitVec 64
  len : BitVec 32
  deriving DecidableEq

/-- The words that it has, `PCIE_LOG_DMA_DATA_BYTES` being 3. -/
def DmaStart.words (x : DmaStart) : ℕ := x.len.toNat / 2 ^ 3

/-- A positive number of whole words. -/
def DmaStart.Whole (x : DmaStart) : Prop := 0 < x.len.toNat ∧ x.len.toNat % 2 ^ 3 = 0

instance (x : DmaStart) : Decidable x.Whole := inferInstanceAs (Decidable (_ ∧ _))

inductive DmaWriteState
  | idle
  | buffering
  | writing
  deriving DecidableEq

/-- The registers and FIFOs. Beside them stand the writes and the words of the user, the writes that
the engine was told of, which write is under way, for which writes the answers of the RAM are, and
the words that the engine was given for each. -/
structure BufferedWrite where
  syncDmaWriteStartQ : List DmaStart := []
  syncDmaWriteDataQ : List (BitVec 64) := []
  dmaBuffer : QueuedRam (BitVec 9) (BitVec 64)
  dmaWriteState : DmaWriteState := .idle
  dmaBufferIndex : BitVec 9 := 0
  dmaBurstLengthMinusOne : BitVec 9 := 0
  dmaWriteAddr : BitVec 64 := 0
  dmaWriteLength : BitVec 32 := 0
  starts : List DmaStart := []
  words : List (BitVec 64) := []
  engineStarts : List DmaStart := []
  burst : ℕ := 0
  reads : List ℕ := []
  given : List (ℕ × BitVec 64) := []

namespace BufferedWrite

/-- The bytes in the other order. -/
def swapEndian (x : BitVec 64) : BitVec 64 :=
  x.extractLsb' 0 8 ++ x.extractLsb' 8 8 ++ x.extractLsb' 16 8 ++ x.extractLsb' 24 8 ++
    x.extractLsb' 32 8 ++ x.extractLsb' 40 8 ++ x.extractLsb' 48 8 ++ x.extractLsb' 56 8

/-- The halves in the other order. -/
def swapHalves (x : BitVec 64) : BitVec 64 := x.extractLsb' 0 32 ++ x.extractLsb' 32 32

/-- A word of the user as the engine gets it. -/
def toEngine (x : BitVec 64) : BitVec 64 := swapHalves (swapEndian x)

/-- `dma_write_start_buffering`. -/
def startBuffering (s : BufferedWrite) (x : DmaStart) (q : List DmaStart) : BufferedWrite :=
  let dataChunks : BitVec 32 := x.len >>> 3
  { s with
    syncDmaWriteStartQ := q
    dmaBurstLengthMinusOne := (dataChunks - 1).truncate 9
    dmaWriteAddr := x.addr
    dmaWriteLength := x.len
    dmaBufferIndex := 0
    dmaWriteState := .buffering }

/-- `dma_write_continue_buffering`. -/
def continueBuffering (s : BufferedWrite) (x : BitVec 64) (q : List (BitVec 64)) : BufferedWrite :=
  let t :=
    { s with
      syncDmaWriteDataQ := q
      dmaBuffer := s.dmaBuffer.write s.dmaBufferIndex (toEngine x) }
  if s.dmaBufferIndex = s.dmaBurstLengthMinusOne then
    { t with
      dmaBufferIndex := 0
      dmaWriteState := .writing
      engineStarts := s.engineStarts ++ [⟨s.dmaWriteAddr, s.dmaWriteLength⟩] }
  else { t with dmaBufferIndex := s.dmaBufferIndex + 1 }

/-- `issue_bram_read`. -/
def issueBramRead (s : BufferedWrite) : BufferedWrite :=
  let t :=
    { s with
      dmaBuffer := s.dmaBuffer.readReq s.dmaBufferIndex
      reads := s.reads ++ [s.burst] }
  if s.dmaBufferIndex = s.dmaBurstLengthMinusOne then
    { t with dmaBufferIndex := 0, dmaWriteState := .idle, burst := s.burst + 1 }
  else { t with dmaBufferIndex := s.dmaBufferIndex + 1 }

/-- `dma_bram_to_engine`. -/
def bramToEngine (s : BufferedWrite) (i : ℕ) (reads : List ℕ) (x : BitVec 64)
    (pending : List (BitVec 64)) : BufferedWrite :=
  { s with
    dmaBuffer := { s.dmaBuffer with pending }
    reads
    given := s.given ++ [(i, x)] }

/-- What the user does, and the rules. -/
inductive Act
  | startWrite (x : DmaStart)
  | writeData (x : BitVec 64)
  | dmaWriteStartBuffering
  | dmaWriteContinueBuffering
  | issueBramRead
  | dmaBramToEngine

/-- A step. The FIFOs have room for two items, and the RAM for two answers; the engine is ready or
not, in that a rule need not fire. -/
def fire (s : BufferedWrite) : Act → Option BufferedWrite
  | .startWrite x =>
    if s.syncDmaWriteStartQ.length < 2 then
      some
        { s with syncDmaWriteStartQ := s.syncDmaWriteStartQ ++ [x], starts := s.starts ++ [x] }
    else none
  | .writeData x =>
    if s.syncDmaWriteDataQ.length < 2 then
      some { s with syncDmaWriteDataQ := s.syncDmaWriteDataQ ++ [x], words := s.words ++ [x] }
    else none
  | .dmaWriteStartBuffering =>
    match s.dmaWriteState, s.syncDmaWriteStartQ with
    | .idle, x :: q => some (s.startBuffering x q)
    | _, _ => none
  | .dmaWriteContinueBuffering =>
    match s.dmaWriteState, s.syncDmaWriteDataQ with
    | .buffering, x :: q => some (s.continueBuffering x q)
    | _, _ => none
  | .issueBramRead =>
    if s.dmaWriteState = .writing ∧ s.dmaBuffer.pending.length < 2 then some s.issueBramRead
    else none
  | .dmaBramToEngine =>
    match s.reads, s.dmaBuffer.pending with
    | i :: reads, x :: pending => some (s.bramToEngine i reads x pending)
    | _, _ => none

/-- The writes of the user have whole words. -/
def Act.Whole : Act → Prop
  | .startWrite x => x.Whole
  | _ => True

/-- The writes of the user fit into the RAM. -/
def Act.Fits : Act → Prop
  | .startWrite x => x.len.toNat ≤ 2 ^ 12
  | _ => True

instance : DecidablePred Act.Whole
  | .startWrite x => inferInstanceAs (Decidable x.Whole)
  | .writeData _ | .dmaWriteStartBuffering | .dmaWriteContinueBuffering | .issueBramRead
  | .dmaBramToEngine => isTrue trivial

instance : DecidablePred Act.Fits
  | .startWrite _ => inferInstanceAs (Decidable (_ ≤ _))
  | .writeData _ | .dmaWriteStartBuffering | .dmaWriteContinueBuffering | .issueBramRead
  | .dmaBramToEngine => isTrue trivial

/-- After a reset. -/
def Started (s : BufferedWrite) : Prop := ∃ contents, s = { dmaBuffer := ⟨contents, []⟩ }

/-- The device with its user. -/
def bufferedWrites : TransitionSystem BufferedWrite where
  init := Started
  step s t := ∃ a : Act, a.Whole ∧ s.fire a = some t

/-- The runs in which all writes fit. -/
def fittingWrites : TransitionSystem BufferedWrite where
  init := Started
  step s t := ∃ a : Act, a.Whole ∧ a.Fits ∧ s.fire a = some t

/-! ### What is said of a state -/

variable (s : BufferedWrite)

/-- The words of each write. -/
def sizes : List ℕ := s.starts.map DmaStart.words

/-- What the user has queued for a write, as the engine should get it. -/
def queued (i : ℕ) : List (BitVec 64) := share s.sizes (s.words.map toEngine) i

/-- No rule can fire. -/
def Resting : Prop :=
  ∀ a, a = .dmaWriteStartBuffering ∨ a = .dmaWriteContinueBuffering ∨ a = .issueBramRead ∨
    a = .dmaBramToEngine → s.fire a = none

/-- The engine is told of the writes in order, and is given for each its words and no others; and
when nothing goes on, unless words of the user are missing, it was given all of them. -/
structure Faithful : Prop where
  starts : s.engineStarts <+: s.starts
  given : ∀ i, ofTag s.given i <+: s.queued i
  /-- The words come in the order of the user. -/
  stream : s.given.map Prod.snd <+: s.words.map toEngine
  settled : s.Resting → s.syncDmaWriteDataQ ≠ [] ∨ s.sizes.sum ≤ s.words.length →
    s.engineStarts = s.starts ∧ ∀ i, ofTag s.given i = s.queued i ∧
      (s.queued i).length = s.sizes.getD i 0

/-! ### The invariant -/

/-- How many words of the current write were taken from the user. -/
def progress : ℕ :=
  match s.dmaWriteState with
  | .idle => 0
  | .buffering => s.dmaBufferIndex.toNat
  | .writing => s.dmaBurstLengthMinusOne.toNat + 1

/-- How many words were taken from the user. -/
def used : ℕ := (s.sizes.take s.burst).sum + s.progress

/-- What is in the RAM from a place on. -/
def slots (ram : QueuedRam (BitVec 9) (BitVec 64)) (a n : ℕ) : List (BitVec 64) :=
  (List.range' a n).map fun k => ram.contents (BitVec.ofNat 9 k)

/-- The words of the current write that are in the RAM and were not read. -/
def held : List (BitVec 64) :=
  match s.dmaWriteState with
  | .idle => []
  | .buffering => slots s.dmaBuffer 0 s.dmaBufferIndex.toNat
  | .writing =>
    slots s.dmaBuffer s.dmaBufferIndex.toNat
      (s.dmaBurstLengthMinusOne.toNat + 1 - s.dmaBufferIndex.toNat)

/-- The current write. -/
structure Current (s : BufferedWrite) (x : DmaStart) : Prop where
  start : s.starts[s.burst]? = some x
  addr : s.dmaWriteAddr = x.addr
  length : s.dmaWriteLength = x.len
  words : s.dmaBurstLengthMinusOne.toNat + 1 = x.words
  index : s.dmaBufferIndex.toNat ≤ s.dmaBurstLengthMinusOne.toNat

/-- What holds in every state, when all writes fit. -/
structure Sound (s : BufferedWrite) : Prop where
  fits : ∀ x ∈ s.starts, 0 < x.words ∧ x.words ≤ 2 ^ 9
  burst_le : s.burst ≤ s.starts.length
  current : s.dmaWriteState ≠ .idle → ∃ x, s.Current x
  startQ : s.syncDmaWriteStartQ =
    s.starts.drop (if s.dmaWriteState = .idle then s.burst else s.burst + 1)
  engine : s.engineStarts =
    s.starts.take (if s.dmaWriteState = .writing then s.burst + 1 else s.burst)
  used_le : s.used ≤ s.words.length
  dataQ : s.syncDmaWriteDataQ = s.words.drop s.used
  reads : s.reads.length = s.dmaBuffer.pending.length
  /-- What the engine was given, what comes out of the RAM, and what is in it. -/
  stream : s.given ++ (s.reads.zip s.dmaBuffer.pending ++ s.held.map (s.burst, ·)) =
    (tagged s.sizes (s.words.map toEngine)).take s.used

variable {s}

theorem sound_of_started (h : s.Started) : s.Sound := by
  obtain ⟨contents, rfl⟩ := h
  exact ⟨nofun, Nat.le_refl _, fun hne => absurd rfl hne, rfl, rfl, Nat.le_refl _, rfl, rfl, rfl⟩

theorem sizes_getElem? {i : ℕ} {x : DmaStart} (h : s.starts[i]? = some x) :
    s.sizes[i]? = some x.words := by
  rw [sizes, List.getElem?_map, h, Option.map_some]

theorem Current.progress_le {x : DmaStart} (h : s.Current x) : s.progress ≤ x.words := by
  have hindex := h.index
  have hwords := h.words
  rw [progress]
  cases s.dmaWriteState
  · exact Nat.zero_le _
  · simp only
    omega
  · exact hwords.le

/-- No more words were taken than the writes have. -/
theorem Sound.used_le_sum (h : s.Sound) : s.used ≤ s.sizes.sum := by
  by_cases hst : s.dmaWriteState = .idle
  · rw [used, progress, hst]
    exact sum_take_le _ _
  · obtain ⟨x, hx⟩ := h.current hst
    have hsum := sum_take_succ (sizes_getElem? hx.start)
    have hle := sum_take_le s.sizes (s.burst + 1)
    have hprogress := hx.progress_le
    rw [used]
    omega

/-! ### Steps -/

/-- The writes that were begun. -/
theorem Sound.begun_le (h : s.Sound) :
    (if s.dmaWriteState = .idle then s.burst else s.burst + 1) ≤ s.starts.length := by
  split
  · exact h.burst_le
  · next hst =>
    obtain ⟨x, hx⟩ := h.current hst
    exact (List.getElem?_eq_some_iff.mp hx.start).1

theorem Sound.startWrite (h : s.Sound) {x : DmaStart} (hx : 0 < x.words ∧ x.words ≤ 2 ^ 9) :
    Sound { s with
      syncDmaWriteStartQ := s.syncDmaWriteStartQ ++ [x], starts := s.starts ++ [x] } := by
  have hbegun := h.begun_le
  have hburst := h.burst_le
  have hsizes : (s.starts ++ [x]).map DmaStart.words = s.sizes ++ [x.words] := by simp [sizes]
  have hused : used { s with
      syncDmaWriteStartQ := s.syncDmaWriteStartQ ++ [x], starts := s.starts ++ [x] } = s.used := by
    show ((_ : List ℕ).take s.burst).sum + s.progress = _
    rw [sizes, hsizes, List.take_append_of_le_length (by simpa [sizes] using hburst), used]
  refine ⟨?_, ?_, ?_, ?_, ?_, ?_, ?_, h.reads, ?_⟩
  · intro y hy
    rcases List.mem_append.mp hy with hy | hy
    · exact h.fits y hy
    · rwa [List.mem_singleton.mp hy]
  · exact hburst.trans (by simp)
  · intro hst
    obtain ⟨y, hy⟩ := h.current hst
    refine ⟨y, ?_, hy.addr, hy.length, hy.words, hy.index⟩
    have hlt := (List.getElem?_eq_some_iff.mp hy.start).1
    exact (List.getElem?_append_left hlt).trans hy.start
  · show s.syncDmaWriteStartQ ++ [x] = (s.starts ++ [x]).drop _
    rw [h.startQ, List.drop_append_of_le_length hbegun]
  · show s.engineStarts = (s.starts ++ [x]).take _
    rw [h.engine, List.take_append_of_le_length]
    split
    · next hst => simpa [hst] using hbegun
    · exact hburst
  · rw [hused]
    exact h.used_le
  · rw [hused]
    exact h.dataQ
  · rw [hused]
    show _ = (tagged ((s.starts ++ [x]).map DmaStart.words) _).take _
    rw [hsizes, take_tagged_append_sizes h.used_le_sum]
    exact h.stream

theorem Sound.writeData (h : s.Sound) (x : BitVec 64) :
    Sound { s with
      syncDmaWriteDataQ := s.syncDmaWriteDataQ ++ [x], words := s.words ++ [x] } := by
  have hused : used { s with
      syncDmaWriteDataQ := s.syncDmaWriteDataQ ++ [x], words := s.words ++ [x] } = s.used := rfl
  refine ⟨h.fits, h.burst_le, ?_, h.startQ, h.engine, ?_, ?_, h.reads, ?_⟩
  · intro hst
    obtain ⟨y, hy⟩ := h.current hst
    exact ⟨y, hy.start, hy.addr, hy.length, hy.words, hy.index⟩
  · rw [hused]
    exact h.used_le.trans (by simp)
  · rw [hused]
    show s.syncDmaWriteDataQ ++ [x] = (s.words ++ [x]).drop _
    rw [h.dataQ, List.drop_append_of_le_length h.used_le]
  · rw [hused]
    show _ = (tagged _ ((s.words ++ [x]).map toEngine)).take _
    rw [List.map_append, take_tagged_append_items (by simpa using h.used_le)]
    exact h.stream

/-- The register of the length, when the write fits. -/
theorem toNat_lengthMinusOne {x : DmaStart} (hx : 0 < x.words ∧ x.words ≤ 2 ^ 9) :
    ((x.len >>> 3 - 1).truncate 9).toNat + 1 = x.words := by
  have hlen := x.len.isLt
  have hshift : (x.len >>> 3).toNat = x.words := by
    rw [BitVec.toNat_ushiftRight, Nat.shiftRight_eq_div_pow, DmaStart.words]
  have hone : (1 : BitVec 32).toNat = 1 := rfl
  rw [BitVec.truncate_eq_setWidth, BitVec.toNat_setWidth, BitVec.toNat_sub, hshift]
  omega

theorem Sound.startBuffering (h : s.Sound) {x : DmaStart} {q : List DmaStart}
    (hst : s.dmaWriteState = .idle) (hq : s.syncDmaWriteStartQ = x :: q) :
    (s.startBuffering x q).Sound := by
  have hdrop : s.starts.drop s.burst = x :: q := by
    have hstart := h.startQ
    rwa [if_pos hst, hq, eq_comm] at hstart
  have hx : s.starts[s.burst]? = some x := by
    rw [← List.head?_drop, hdrop, List.head?_cons]
  have hused : (s.startBuffering x q).used = s.used := by
    rw [used, used, progress, progress, hst]
    rfl
  have hengine := h.engine
  rw [if_neg (by rw [hst]; decide)] at hengine
  refine ⟨h.fits, h.burst_le, ?_, ?_, hengine, ?_, ?_, h.reads, ?_⟩
  · intro _
    exact ⟨x, hx, rfl, rfl, toNat_lengthMinusOne (h.fits x (List.mem_of_getElem? hx)),
      Nat.zero_le _⟩
  · show q = s.starts.drop (s.burst + 1)
    rw [← List.tail_drop, hdrop, List.tail_cons]
  · rw [hused]
    exact h.used_le
  · rw [hused]
    exact h.dataQ
  · have hstream := h.stream
    rw [held, hst] at hstream
    rw [hused]
    exact hstream

/-- A word is written behind those that are there. -/
theorem slots_write (ram : QueuedRam (BitVec 9) (BitVec 64)) (index : BitVec 9) (x : BitVec 64) :
    slots (ram.write index x) 0 (index.toNat + 1) = slots ram 0 index.toNat ++ [x] := by
  have hlt := index.isLt
  rw [slots, slots, List.range'_concat, List.map_append, List.map_singleton,
    QueuedRam.contents_write]
  congr 1
  · refine List.map_congr_left fun k hk => ?_
    have hk' := (List.mem_range'_1.mp hk).2
    refine Function.update_of_ne (fun heq => ?_) _ _
    have hnat := congrArg BitVec.toNat heq
    rw [BitVec.toNat_ofNat] at hnat
    omega
  · simp

/-- An index below the last one. -/
theorem toNat_succ {index last : BitVec 9} (h : index.toNat < last.toNat) :
    (index + 1).toNat = index.toNat + 1 := by
  have hone : (1 : BitVec 9).toNat = 1 := rfl
  have hbound := last.isLt
  rw [BitVec.toNat_add, hone]
  omega

/-- The next word of the user is one of the current write. -/
theorem Sound.take_next (h : s.Sound) {x : DmaStart} (hx : s.Current x)
    (hst : s.dmaWriteState = .buffering) {w : BitVec 64} {q : List (BitVec 64)}
    (hq : s.syncDmaWriteDataQ = w :: q) :
    s.used + 1 ≤ s.words.length ∧ q = s.words.drop (s.used + 1) ∧
      (tagged s.sizes (s.words.map toEngine)).take (s.used + 1) =
        (tagged s.sizes (s.words.map toEngine)).take s.used ++ [(s.burst, toEngine w)] := by
  have hdrop : s.words.drop s.used = w :: q := h.dataQ.symm.trans hq
  have hw : s.words[s.used]? = some w := by
    rw [← List.head?_drop, hdrop, List.head?_cons]
  have howner : (owners s.sizes)[s.used]? = some s.burst := by
    rw [used, progress, hst]
    refine getElem?_owners (sizes_getElem? hx.start) ?_
    have hindex := hx.index
    have hwords := hx.words
    simp only
    omega
  refine ⟨(List.getElem?_eq_some_iff.mp hw).1, ?_, take_succ_tagged howner ?_⟩
  · rw [← List.tail_drop, hdrop, List.tail_cons]
  · rw [List.getElem?_map, hw, Option.map_some]

theorem Sound.continueBuffering (h : s.Sound) {w : BitVec 64} {q : List (BitVec 64)}
    (hst : s.dmaWriteState = .buffering) (hq : s.syncDmaWriteDataQ = w :: q) :
    (s.continueBuffering w q).Sound := by
  obtain ⟨x, hx⟩ := h.current (by rw [hst]; decide)
  obtain ⟨hlt, hrest, htake⟩ := h.take_next hx hst hq
  have hstartQ := h.startQ
  have hengine := h.engine
  have hstream := h.stream
  have hwords := hx.words
  have hindex := hx.index
  rw [if_neg (by rw [hst]; decide)] at hstartQ hengine
  rw [held, hst] at hstream
  have hused : s.used = (s.sizes.take s.burst).sum + s.dmaBufferIndex.toNat := by
    rw [used, progress, hst]
  -- The word stands behind those of the write that are in the RAM.
  have hnext : s.given ++ (s.reads.zip s.dmaBuffer.pending ++
      (slots (s.dmaBuffer.write s.dmaBufferIndex (toEngine w)) 0
        (s.dmaBufferIndex.toNat + 1)).map (s.burst, ·)) =
      (tagged s.sizes (s.words.map toEngine)).take (s.used + 1) := by
    rw [slots_write, List.map_append, List.map_singleton, htake, ← hstream]
    simp only [List.append_assoc]
  rw [BufferedWrite.continueBuffering]
  split
  · next hlast =>
    -- The write is complete, and the engine is told of it.
    rw [← hlast] at hwords
    have hused' : (s.sizes.take s.burst).sum + (s.dmaBurstLengthMinusOne.toNat + 1) =
        s.used + 1 := by
      rw [hused, ← hlast, Nat.add_assoc]
    refine ⟨h.fits, h.burst_le, fun _ => ⟨x, hx.start, hx.addr, hx.length, hx.words,
      Nat.zero_le _⟩, hstartQ, ?_, ?_, ?_, h.reads, ?_⟩
    · show s.engineStarts ++ [⟨s.dmaWriteAddr, s.dmaWriteLength⟩] = s.starts.take (s.burst + 1)
      rw [hengine, hx.addr, hx.length, List.take_add_one, hx.start, Option.toList_some]
    · exact hused'.le.trans hlt
    · exact hrest.trans (congrArg s.words.drop hused'.symm)
    · refine Eq.trans ?_ (hnext.trans (congrArg (List.take · _) hused'.symm))
      rw [hlast]
      rfl
  · next hmore =>
    have hlt' : s.dmaBufferIndex.toNat < s.dmaBurstLengthMinusOne.toNat :=
      Nat.lt_of_le_of_ne hindex fun heq => hmore (BitVec.eq_of_toNat_eq heq)
    have hindex' : (s.dmaBufferIndex + 1).toNat = s.dmaBufferIndex.toNat + 1 :=
      toNat_succ hlt'
    have hused' : (s.sizes.take s.burst).sum + (s.dmaBufferIndex + 1).toNat = s.used + 1 := by
      rw [hused, hindex', Nat.add_assoc]
    refine ⟨h.fits, h.burst_le, fun _ => ⟨x, hx.start, hx.addr, hx.length, hx.words,
      hindex'.le.trans hlt'⟩, ?_, ?_, ?_, ?_, h.reads, ?_⟩
    · show s.syncDmaWriteStartQ = s.starts.drop (if s.dmaWriteState = .idle then _ else _)
      rw [if_neg (by rw [hst]; decide)]
      exact hstartQ
    · show s.engineStarts = s.starts.take (if s.dmaWriteState = .writing then _ else _)
      rw [if_neg (by rw [hst]; decide)]
      exact hengine
    · simp only [used, progress, hst]
      exact hused'.le.trans hlt
    · simp only [used, progress, hst]
      exact hrest.trans (congrArg s.words.drop hused'.symm)
    · simp only [used, progress, held, hst]
      refine Eq.trans ?_ (hnext.trans (congrArg (List.take · _) hused'.symm))
      rw [hindex']
      rfl

/-- The first of the words that were not read. -/
theorem slots_succ (ram : QueuedRam (BitVec 9) (BitVec 64)) (index : BitVec 9) (n : ℕ) :
    slots ram index.toNat (n + 1) = ram.contents index :: slots ram (index.toNat + 1) n := by
  rw [slots, slots, List.range'_succ, List.map_cons]
  simp

theorem Sound.issueBramRead (h : s.Sound) (hst : s.dmaWriteState = .writing) :
    s.issueBramRead.Sound := by
  obtain ⟨x, hx⟩ := h.current (by rw [hst]; decide)
  have hstartQ := h.startQ
  have hengine := h.engine
  have hstream := h.stream
  have hused_le := h.used_le
  have hdataQ := h.dataQ
  have hwords := hx.words
  have hindex := hx.index
  rw [if_neg (by rw [hst]; decide)] at hstartQ
  rw [if_pos hst] at hengine
  have hused : s.used = (s.sizes.take s.burst).sum + (s.dmaBurstLengthMinusOne.toNat + 1) := by
    rw [used, progress, hst]
  -- The word goes from the RAM to its answers.
  have hnext : s.given ++ ((s.reads ++ [s.burst]).zip
      (s.dmaBuffer.pending ++ [s.dmaBuffer.contents s.dmaBufferIndex]) ++
      (slots s.dmaBuffer (s.dmaBufferIndex.toNat + 1)
        (s.dmaBurstLengthMinusOne.toNat - s.dmaBufferIndex.toNat)).map (s.burst, ·)) =
      (tagged s.sizes (s.words.map toEngine)).take s.used := by
    rw [← hstream, held, hst]
    simp only
    rw [show s.dmaBurstLengthMinusOne.toNat + 1 - s.dmaBufferIndex.toNat =
      s.dmaBurstLengthMinusOne.toNat - s.dmaBufferIndex.toNat + 1 by omega, slots_succ,
      List.zip_append h.reads]
    simp
  have hreads : (s.reads ++ [s.burst]).length =
      (s.dmaBuffer.pending ++ [s.dmaBuffer.contents s.dmaBufferIndex]).length := by
    rw [List.length_append, List.length_append, h.reads]
    rfl
  rw [BufferedWrite.issueBramRead]
  split
  · next hlast =>
    have hused' : (s.sizes.take (s.burst + 1)).sum + 0 = s.used := by
      rw [sum_take_succ (sizes_getElem? hx.start), hused, hwords, Nat.add_zero]
    refine ⟨h.fits, (List.getElem?_eq_some_iff.mp hx.start).1, fun hne => absurd rfl hne, hstartQ,
      hengine, ?_, ?_, hreads, ?_⟩
    · exact hused'.le.trans hused_le
    · exact hdataQ.trans (congrArg s.words.drop hused'.symm)
    · refine Eq.trans ?_ (hnext.trans (congrArg (List.take · _) hused'.symm))
      rw [hlast, Nat.sub_self]
      rfl
  · next hmore =>
    have hlt : s.dmaBufferIndex.toNat < s.dmaBurstLengthMinusOne.toNat :=
      Nat.lt_of_le_of_ne hindex fun heq => hmore (BitVec.eq_of_toNat_eq heq)
    have hindex' : (s.dmaBufferIndex + 1).toNat = s.dmaBufferIndex.toNat + 1 :=
      toNat_succ hlt
    refine ⟨h.fits, h.burst_le, fun _ => ⟨x, hx.start, hx.addr, hx.length, hx.words,
      hindex'.le.trans hlt⟩, ?_, ?_, ?_, ?_, hreads, ?_⟩
    · show s.syncDmaWriteStartQ = s.starts.drop (if s.dmaWriteState = .idle then _ else _)
      rw [if_neg (by rw [hst]; decide)]
      exact hstartQ
    · show s.engineStarts = s.starts.take (if s.dmaWriteState = .writing then _ else _)
      rw [if_pos hst]
      exact hengine
    · simp only [used, progress, hst]
      exact hused.ge.trans hused_le
    · simp only [used, progress, hst]
      exact hdataQ.trans (congrArg s.words.drop hused)
    · simp only [used, progress, held, hst]
      refine Eq.trans ?_ (hnext.trans (congrArg (List.take · _) hused))
      rw [hindex', Nat.add_sub_add_right]
      rfl

theorem Sound.bramToEngine (h : s.Sound) {i : ℕ} {reads : List ℕ} {x : BitVec 64}
    {pending : List (BitVec 64)} (hi : s.reads = i :: reads)
    (hx : s.dmaBuffer.pending = x :: pending) : (s.bramToEngine i reads x pending).Sound := by
  have hreads := h.reads
  have hstream := h.stream
  rw [hi, hx] at hreads hstream
  refine ⟨h.fits, h.burst_le, ?_, h.startQ, h.engine, h.used_le, h.dataQ, Nat.succ.inj hreads, ?_⟩
  · intro hst
    obtain ⟨y, hy⟩ := h.current hst
    exact ⟨y, hy.start, hy.addr, hy.length, hy.words, hy.index⟩
  · refine Eq.trans ?_ hstream
    rw [List.zip_cons_cons]
    exact List.append_assoc s.given [(i, x)] _

theorem words_of_fits {x : DmaStart} (hwhole : x.Whole) (hfits : x.len.toNat ≤ 2 ^ 12) :
    0 < x.words ∧ x.words ≤ 2 ^ 9 := by
  obtain ⟨hpos, hmod⟩ := hwhole
  rw [DmaStart.words]
  omega

/-- **One step.** -/
theorem Sound.fire (h : s.Sound) {a : Act} (hwhole : a.Whole) (hfits : a.Fits) {t : BufferedWrite}
    (ht : s.fire a = some t) : t.Sound := by
  cases a with
  | startWrite x =>
    rw [BufferedWrite.fire] at ht
    split at ht
    · obtain rfl := Option.some.inj ht
      exact h.startWrite (words_of_fits hwhole hfits)
    · cases ht
  | writeData x =>
    rw [BufferedWrite.fire] at ht
    split at ht
    · obtain rfl := Option.some.inj ht
      exact h.writeData x
    · cases ht
  | dmaWriteStartBuffering =>
    simp only [BufferedWrite.fire] at ht
    split at ht
    · next hst hq =>
      obtain rfl := Option.some.inj ht
      exact h.startBuffering hst hq
    · cases ht
  | dmaWriteContinueBuffering =>
    simp only [BufferedWrite.fire] at ht
    split at ht
    · next hst hq =>
      obtain rfl := Option.some.inj ht
      exact h.continueBuffering hst hq
    · cases ht
  | issueBramRead =>
    rw [BufferedWrite.fire] at ht
    split at ht
    · next hst =>
      obtain rfl := Option.some.inj ht
      exact h.issueBramRead hst.1
    · cases ht
  | dmaBramToEngine =>
    simp only [BufferedWrite.fire] at ht
    split at ht
    · next hreads hpending =>
      obtain rfl := Option.some.inj ht
      exact h.bramToEngine hreads hpending
    · cases ht

theorem sound_of_reachable (h : fittingWrites.Reachable s) : s.Sound := by
  refine TransitionSystem.Reachable.invariant (P := fun s => s.Sound) ?_ ?_ h
  · exact fun _ => sound_of_started
  · rintro s t hs ⟨a, hwhole, hfits, ht⟩
    exact hs.fire hwhole hfits ht

/-! ### The end of a run -/

/-- Where no rule can fire, the RAM has no answers, and a write is idle or waits for words. -/
theorem Sound.resting (h : s.Sound) (hrest : s.Resting) : s.dmaBuffer.pending = [] ∧
    (s.dmaWriteState = .idle ∧ s.syncDmaWriteStartQ = [] ∨
      s.dmaWriteState = .buffering ∧ s.syncDmaWriteDataQ = []) := by
  have hengine := hrest .dmaBramToEngine (by simp)
  have hissue := hrest .issueBramRead (by simp)
  have hcontinue := hrest .dmaWriteContinueBuffering (by simp)
  have hstart := hrest .dmaWriteStartBuffering (by simp)
  have hpending : s.dmaBuffer.pending = [] := by
    have hlen := h.reads
    cases hreads : s.reads with
    | nil => exact List.length_eq_zero_iff.mp (by simpa [hreads] using hlen.symm)
    | cons i reads =>
      cases hpending : s.dmaBuffer.pending with
      | nil => rfl
      | cons x pending => simp [BufferedWrite.fire, hreads, hpending] at hengine
  refine ⟨hpending, ?_⟩
  cases hst : s.dmaWriteState with
  | idle =>
    cases hq : s.syncDmaWriteStartQ with
    | nil => exact Or.inl ⟨rfl, rfl⟩
    | cons x q => simp [BufferedWrite.fire, hst, hq] at hstart
  | buffering =>
    cases hq : s.syncDmaWriteDataQ with
    | nil => exact Or.inr ⟨rfl, rfl⟩
    | cons x q => simp [BufferedWrite.fire, hst, hq] at hcontinue
  | writing => simp [BufferedWrite.fire, hst, hpending] at hissue

/-- Where no rule can fire and no words are missing, all writes are done. -/
theorem Sound.settled (h : s.Sound) (hrest : s.Resting)
    (hwords : s.syncDmaWriteDataQ ≠ [] ∨ s.sizes.sum ≤ s.words.length) :
    s.engineStarts = s.starts ∧ s.sizes.sum ≤ s.words.length ∧
      s.given = tagged s.sizes (s.words.map toEngine) := by
  have hused_le := h.used_le
  obtain ⟨hpending, ⟨hst, hq⟩ | ⟨hst, hq⟩⟩ := h.resting hrest
  · have hstartQ := h.startQ
    have hengine := h.engine
    have hstream := h.stream
    rw [hq, if_pos hst, eq_comm, List.drop_eq_nil_iff] at hstartQ
    rw [if_neg (by rw [hst]; decide), List.take_of_length_le hstartQ] at hengine
    have hused : s.used = s.sizes.sum := by
      rw [used, progress, hst, List.take_of_length_le (by simpa [sizes] using hstartQ),
        Nat.add_zero]
    rw [hused] at hused_le hstream
    refine ⟨hengine, hused_le, ?_⟩
    rw [held, hst, hpending, List.zip_nil_right, List.map_nil, List.append_nil, List.append_nil,
      List.take_of_length_le (by simp [tagged, length_owners])] at hstream
    exact hstream
  · -- A write that waits for words of the user is not complete.
    exfalso
    obtain ⟨x, hx⟩ := h.current (by rw [hst]; decide)
    have hle : s.words.length ≤ s.used := by
      rw [← List.drop_eq_nil_iff, ← h.dataQ, hq]
    have hsum := sum_take_succ (sizes_getElem? hx.start)
    have hnext := sum_take_le s.sizes (s.burst + 1)
    have hindex := hx.index
    have hxwords := hx.words
    rw [used, progress, hst] at hle
    have hmissing := hwords.resolve_left (by simp [hq])
    simp only at hle
    omega

theorem Sound.faithful (h : s.Sound) : s.Faithful := by
  have hgiven : s.given <+: tagged s.sizes (s.words.map toEngine) := by
    have hpre : s.given <+: (tagged s.sizes (s.words.map toEngine)).take s.used :=
      ⟨_, h.stream⟩
    exact hpre.trans (List.take_prefix _ _)
  refine ⟨?_, fun i => ?_, ?_, fun hrest hwords => ?_⟩
  · rw [h.engine]
    exact List.take_prefix _ _
  · rw [queued, ← ofTag_tagged]
    exact ofTag_isPrefix hgiven i
  · exact (hgiven.map Prod.snd).trans (map_snd_tagged_isPrefix _ _)
  · obtain ⟨hengine, hsum, hall⟩ := h.settled hrest hwords
    refine ⟨hengine, fun i => ⟨?_, length_share (by simpa using hsum) i⟩⟩
    rw [hall, ofTag_tagged, queued]

/-- What the rules have still to do. -/
def work (s : BufferedWrite) : ℕ :=
  s.syncDmaWriteStartQ.length + 3 * s.syncDmaWriteDataQ.length + 2 * s.held.length +
    s.dmaBuffer.pending.length

/-- **The rules come to an end**: each of them leaves less to do. -/
theorem Sound.work_decreases (h : s.Sound) {a : Act} (hrule : a = .dmaWriteStartBuffering ∨
    a = .dmaWriteContinueBuffering ∨ a = .issueBramRead ∨ a = .dmaBramToEngine)
    {t : BufferedWrite} (ht : s.fire a = some t) : t.work < s.work := by
  rcases hrule with rfl | rfl | rfl | rfl
  · simp only [BufferedWrite.fire] at ht
    split at ht
    · next hst hq =>
      obtain rfl := Option.some.inj ht
      simp [work, BufferedWrite.startBuffering, held, hst, hq, slots]
    · cases ht
  · simp only [BufferedWrite.fire] at ht
    split at ht
    · next hst hq =>
      obtain rfl := Option.some.inj ht
      rw [BufferedWrite.continueBuffering]
      split
      · next hlast =>
        simp [work, held, hst, hq, slots, hlast]
        omega
      · next hmore =>
        obtain ⟨x, hx⟩ := h.current (by rw [hst]; decide)
        have hlt := Nat.lt_of_le_of_ne hx.index fun heq => hmore (BitVec.eq_of_toNat_eq heq)
        have hindex := toNat_succ hlt
        simp only [work, held, hst, hq, slots, hindex, List.length_map, List.length_range',
          List.length_cons, QueuedRam.pending_write]
        omega
    · cases ht
  · rw [BufferedWrite.fire] at ht
    split at ht
    · next hst =>
      obtain rfl := Option.some.inj ht
      obtain ⟨x, hx⟩ := h.current (by rw [hst.1]; decide)
      have hindex := hx.index
      rw [BufferedWrite.issueBramRead]
      split
      · next hlast =>
        simp [work, held, hst.1, slots, hlast]
        omega
      · next hmore =>
        have hlt := Nat.lt_of_le_of_ne hindex fun heq => hmore (BitVec.eq_of_toNat_eq heq)
        have hnext := toNat_succ hlt
        simp only [work, held, hst.1, slots, hnext, List.length_map, List.length_range',
          QueuedRam.pending_readReq, List.length_append, List.length_singleton]
        omega
    · cases ht
  · simp only [BufferedWrite.fire] at ht
    split at ht
    · next i reads x pending hreads hpending =>
      obtain rfl := Option.some.inj ht
      have hlen := congrArg List.length hpending
      rw [List.length_cons] at hlen
      show s.syncDmaWriteStartQ.length + 3 * s.syncDmaWriteDataQ.length + 2 * s.held.length +
        pending.length < s.work
      rw [work]
      omega
    · cases ht

/-- **The engine gets the words of each write**, when all writes fit into the RAM. -/
theorem writes_faithful (h : fittingWrites.Reachable s) : s.Faithful :=
  (sound_of_reachable h).faithful

/-- The RAM holds zeroes. -/
def zeroed : BufferedWrite := { dmaBuffer := ⟨fun _ => 0, []⟩ }

/-- A write of two words, the second of which is missing, and one of a word. -/
def twoWrites : List Act :=
  [.startWrite ⟨0x10000, 16⟩, .writeData 1, .startWrite ⟨0x20000, 8⟩, .dmaWriteStartBuffering,
    .dmaWriteContinueBuffering, .writeData 2, .dmaWriteContinueBuffering, .issueBramRead,
    .issueBramRead, .dmaWriteStartBuffering, .writeData 3, .dmaWriteContinueBuffering,
    .dmaBramToEngine]

theorem writes_faithful_twoWrites : ∃ s : BufferedWrite, fittingWrites.Reachable s ∧
    s.given = [(0, toEngine 1)] ∧ s.dmaBuffer.pending = [toEngine 2] ∧
    s.dmaWriteState = .writing ∧ s.Faithful := by
  have hrun : (twoWrites.foldlM (TransitionSystem.attempt (fun _ a => a.Whole ∧ a.Fits)
      BufferedWrite.fire) zeroed).map (fun s => (s.given, s.dmaBuffer.pending, s.dmaWriteState)) =
      some ([(0, toEngine 1)], [toEngine 2], .writing) := by decide
  obtain ⟨s, hs, hvalues⟩ := Option.map_eq_some_iff.mp hrun
  have hreach : fittingWrites.Reachable s := by
    refine (TransitionSystem.Reachable.init ?_).attempts ?_ hs
    · exact ⟨_, rfl⟩
    · intro s a t hguard ht
      exact ⟨a, hguard.1, hguard.2, ht⟩
  obtain ⟨hgiven, hpending, hst⟩ : s.given = _ ∧ s.dmaBuffer.pending = _ ∧ s.dmaWriteState = _ := by
    simpa using hvalues
  exact ⟨s, hreach, hgiven, hpending, hst, writes_faithful hreach⟩

/-- A write of 513 words and one of a word; the user has queued two words of the first. -/
def longWrite : List Act :=
  [.startWrite ⟨0x10000, 4104⟩, .startWrite ⟨0x20000, 8⟩, .writeData 1, .dmaWriteStartBuffering,
    .dmaWriteContinueBuffering, .issueBramRead, .dmaBramToEngine, .writeData 2,
    .dmaWriteStartBuffering, .dmaWriteContinueBuffering, .issueBramRead, .dmaBramToEngine]

/-- The second word of a write of 513 words is given for the next write. -/
theorem writes_mixed : ∃ s : BufferedWrite, bufferedWrites.Reachable s ∧
    ofTag s.given 1 = [toEngine 2] ∧ s.queued 1 = [] ∧ ¬ s.Faithful := by
  have hrun : (longWrite.foldlM (TransitionSystem.attempt (fun _ a => a.Whole)
      BufferedWrite.fire) zeroed).map (fun s => (ofTag s.given 1, s.queued 1)) =
      some ([toEngine 2], []) := by decide
  obtain ⟨s, hs, hvalues⟩ := Option.map_eq_some_iff.mp hrun
  obtain ⟨hgiven, hqueued⟩ := Prod.mk.inj hvalues
  refine ⟨s, ?_, hgiven, hqueued, fun h => ?_⟩
  · refine (TransitionSystem.Reachable.init ?_).attempts ?_ hs
    · exact ⟨_, rfl⟩
    · intro s a t hguard ht
      exact ⟨a, hguard, ht⟩
  · have hpre := h.given 1
    rw [hgiven, hqueued] at hpre
    exact absurd (List.prefix_nil.mp hpre) (List.cons_ne_nil _ _)

end BufferedWrite

end PcieCsr

end LeapPlatforms
