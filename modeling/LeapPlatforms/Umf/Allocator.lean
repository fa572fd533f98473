import LeapPlatforms.Foundation.TransitionSystem
import LeapPlatforms.Umf.Message
import Mathlib.Data.Multiset.AddSub

/-!
# The allocator of UMF messages

Messages come from a list of free ones, which the constructor of the allocator fills; when it is
empty a message comes from `malloc`. A message has a pointer to its allocator, which `DecodeHeader`
uses to end the program when a header is too long. The constructor sets this pointer, and then
clears the message again; `New` sets it after clearing. The decoder of the template class has no
check.

The list of free messages is a parameter. The address of a message is its place among all that were
taken from `malloc`; the links of the list are not part of a message here.

## Main definitions

* `FreeList` — what the allocator needs of the list
* `Object`, `MessageClass`, `Object.decodeHeader`, `Outcome` — messages, and what decoding does
* `Allocator`, `Clients`, `clients` — every history of allocations, uses and releases
* `Refuses` — the message is safe to append to, or the program ends

## Main results

* `Sound.step`, `sound_of_reachable` — which messages have their pointer
* `safe_of_length_le` — what the length is worth
* `refuses_iff`
-/

namespace LeapPlatforms

namespace Umf

open Bytes BitFields

variable {P : Params}

/-- `ASIM_FREE_LIST_CLASS`. -/
structure FreeList (α : Type) where
  /-- The list. -/
  T : Type
  /-- A new list. -/
  empty : T
  /-- `Push`. -/
  push : T → α → T
  /-- `Pop`, with nothing for `NULL`. -/
  pop : T → Option (α × T)
  /-- What is in a list. -/
  contents : T → Multiset α
  contents_empty : contents empty = 0
  contents_push : ∀ l a, contents (push l a) = a ::ₘ contents l
  contents_pop : ∀ l a l', pop l = some (a, l') → contents l = a ::ₘ contents l'

/-! ### Messages -/

/-- A pointer to an allocator: the only instance, or none. -/
inductive AllocatorPtr
  | null
  | self
  deriving DecidableEq

variable (P) in
/-- A message in memory. -/
structure Object extends Message P where
  /-- `allocator`. -/
  allocator : AllocatorPtr

namespace Object

variable (P) in
theorem length_zeros : (List.replicate P.maxMsgBytes (0 : Byte)).length = P.maxMsgBytes :=
  List.length_replicate

variable (P) in
/-- Memory that is cleared. -/
def zeroed : Object P where
  channelID := 0
  serviceID := 0
  methodID := 0
  length := 0
  phyPvt := 0
  header := 0
  message := List.replicate P.maxMsgBytes 0
  message_length := length_zeros P
  readIndex := 0
  writeIndex := 0
  allocator := .null

/-- `setAllocator`. -/
def setAllocator (o : Object P) (allocatorNew : AllocatorPtr) : Object P :=
  { o with allocator := allocatorNew }

/-- `memset`, with zeros. -/
def memset (_ : Object P) : Object P := zeroed P

/-- The constructor, of either class: `Clear`. -/
def clear (o : Object P) : Object P := { o with length := 0, readIndex := 0, writeIndex := 0 }

end Object

/-- The parameters of `UMF_MESSAGE_TEMPLATE_CLASS`. -/
structure Widths where
  /-- `channelIDBits`. -/
  channelIDBits : ℕ
  /-- `serviceIDBits`. -/
  serviceIDBits : ℕ
  /-- `methodIDBits`. -/
  methodIDBits : ℕ
  /-- `msgLengthBits`. -/
  msgLengthBits : ℕ
  /-- An `int` can be shifted by a width that there is a mask of. -/
  bits_lt : channelIDBits < 32 ∧ serviceIDBits < 32 ∧ methodIDBits < 32 ∧ msgLengthBits < 32

/-- `DecodeHeader` of the template class. -/
def Widths.decodeHeader (W : Widths) (m : HeaderInfo P) (header : Chunk P) : HeaderInfo P :=
  let chunk := header
  let length := (BitVec.ofNat _ P.chunkBytes *
    (chunk &&& (umfBitMask W.msgLengthBits).signExtend _)).setWidth 32
  let chunk := chunk >>> W.msgLengthBits
  let chunk := chunk >>> W.methodIDBits
  let serviceID := (chunk &&& (umfBitMask W.serviceIDBits).signExtend _).setWidth 32
  let chunk := chunk >>> W.serviceIDBits
  let chunk := chunk >>> W.channelIDBits
  { m with header := header, length := length, serviceID := serviceID, phyPvt := chunk }

/-- The class that a message is of. -/
inductive MessageClass
  | base
  | template (W : Widths)

variable (P) in
/-- What decoding a header ends in. -/
inductive Outcome
  | decoded (m : Message P)
  | callbackExit (through : AllocatorPtr)

/-- `DecodeHeader`. -/
def Object.decodeHeader (o : Object P) (chunk : Chunk P) : MessageClass → Outcome P
  | .base =>
    match Umf.decodeHeader chunk with
    | none => .callbackExit o.allocator
    | some info => .decoded { o.toMessage with toHeaderInfo := info }
  | .template W => .decoded { o.toMessage with toHeaderInfo := W.decodeHeader o.toHeaderInfo chunk }

/-! ### The allocator -/

/-- `UMF_POOL_SIZE`. -/
def poolSize : ℕ := 8192

variable (P) in
/-- `UMF_ALLOCATOR_CLASS`, and all messages that it took from `malloc`. -/
structure Allocator (F : FreeList ℕ) where
  /-- `freeList`. -/
  freeList : F.T
  /-- The messages. -/
  objects : List (Object P)

namespace Allocator

variable {F : FreeList ℕ}

/-- A message of the pool. -/
def pooled (P : Params) : Object P := ((Object.zeroed P).setAllocator .self).memset

variable (P F) in
/-- The loop of the constructor. -/
def construct : ℕ → Allocator P F
  | 0 => { freeList := F.empty, objects := [] }
  | n + 1 =>
    { freeList := F.push (construct n).freeList (construct n).objects.length
      objects := (construct n).objects ++ [pooled P] }

/-- `New`, and then the constructor of the message. -/
def new (s : Allocator P F) : ℕ × Allocator P F :=
  match F.pop s.freeList with
  | some (m, rest) => (m, { freeList := rest, objects := s.objects.modify m Object.clear })
  | none => (s.objects.length,
      { s with objects := s.objects ++ [((Object.zeroed P).setAllocator .self).clear] })

/-- `Delete`. -/
def delete (s : Allocator P F) (m : ℕ) : Allocator P F :=
  { s with freeList := F.push s.freeList m }

/-- A client does with a message what it likes, but cannot get at its pointer. -/
def use (s : Allocator P F) (m : ℕ) (message : Message P) : Allocator P F :=
  { s with objects := s.objects.modify m fun o => { o with toMessage := message } }

end Allocator

/-! ### Histories -/

variable (P) in
/-- The allocator, and the messages that clients have. -/
structure Clients (F : FreeList ℕ) where
  /-- The allocator. -/
  allocator : Allocator P F
  /-- The messages allocated and not released. -/
  live : Multiset ℕ

variable {F : FreeList ℕ}

/-- What clients do. -/
inductive Clients.Step (s : Clients P F) : Clients P F → Prop
  | new : Step s { allocator := s.allocator.new.2, live := s.allocator.new.1 ::ₘ s.live }
  | use (m : ℕ) (message : Message P) (h : m ∈ s.live) :
    Step s { s with allocator := s.allocator.use m message }
  | delete (m : ℕ) (h : m ∈ s.live) :
    Step s { allocator := s.allocator.delete m, live := s.live.erase m }

variable (P F) in
/-- The histories. -/
def clients : TransitionSystem (Clients P F) where
  init s := s = { allocator := .construct P F poolSize, live := 0 }
  step := Clients.Step

/-! ### Which messages have their pointer -/

theorem Allocator.objects_construct (n : ℕ) :
    (Allocator.construct P F n).objects = List.replicate n (Object.zeroed P) := by
  induction n with
  | zero => rfl
  | succ n ih =>
    rw [construct, ih, List.replicate_succ']
    rfl

/-- Those of the pool have none. -/
structure Sound (s : Clients P F) : Prop where
  /-- The pool comes first. -/
  poolSize_le : poolSize ≤ s.allocator.objects.length
  /-- Its messages were cleared after the pointer was set. -/
  pointer : ∀ m o, s.allocator.objects[m]? = some o →
    o.allocator = if m < poolSize then .null else .self
  /-- Free messages are messages. -/
  free_lt : ∀ m ∈ F.contents s.allocator.freeList, m < s.allocator.objects.length
  /-- So are those of clients. -/
  live_lt : ∀ m ∈ s.live, m < s.allocator.objects.length

theorem contents_construct_lt (n : ℕ) {m : ℕ}
    (h : m ∈ F.contents (Allocator.construct P F n).freeList) : m < n := by
  induction n with
  | zero =>
    rw [Allocator.construct, F.contents_empty] at h
    exact absurd h (Multiset.notMem_zero m)
  | succ n ih =>
    rw [Allocator.construct, F.contents_push, Allocator.objects_construct,
      List.length_replicate] at h
    rcases Multiset.mem_cons.mp h with rfl | h
    · exact Nat.lt_succ_self _
    · exact Nat.lt_succ_of_lt (ih h)

namespace Sound

theorem init : Sound (P := P) (F := F)
    { allocator := .construct P F poolSize, live := 0 } where
  poolSize_le := by rw [Allocator.objects_construct, List.length_replicate]
  pointer m o h := by
    rw [Allocator.objects_construct, List.getElem?_replicate] at h
    split at h
    · next hm =>
      obtain rfl := Option.some.inj h
      rw [if_pos hm]
      rfl
    · cases h
  free_lt m h := by
    rw [Allocator.objects_construct, List.length_replicate]
    exact contents_construct_lt _ h
  live_lt m h := absurd h (Multiset.notMem_zero m)

variable {s : Clients P F}

/-- A change of one message leaves its pointer. -/
theorem modify (h : Sound s) (m : ℕ) {f : Object P → Object P}
    (hf : ∀ o, (f o).allocator = o.allocator) (n : ℕ) (o : Object P)
    (ho : (s.allocator.objects.modify m f)[n]? = some o) :
    o.allocator = if n < poolSize then .null else .self := by
  rw [List.getElem?_modify] at ho
  obtain ⟨o', ho', rfl⟩ := Option.map_eq_some_iff.mp ho
  split
  · rw [hf, h.pointer _ _ ho']
  · exact h.pointer _ _ ho'

theorem new (h : Sound s) :
    Sound { allocator := s.allocator.new.2, live := s.allocator.new.1 ::ₘ s.live } := by
  cases hpop : F.pop s.allocator.freeList with
  | none =>
    have hnew : s.allocator.new = (s.allocator.objects.length, { s.allocator with
        objects := s.allocator.objects ++ [((Object.zeroed P).setAllocator .self).clear] }) := by
      rw [Allocator.new, hpop]
    have hle := h.poolSize_le
    rw [hnew]
    refine ⟨?_, fun m o ho => ?_, fun m hm => ?_, fun m hm => ?_⟩
    · rw [List.length_append]
      exact hle.trans (Nat.le_add_right _ _)
    · rw [List.getElem?_append] at ho
      split at ho
      · exact h.pointer m o ho
      · rw [List.getElem?_singleton] at ho
        split at ho
        · obtain rfl := Option.some.inj ho
          rw [if_neg (by omega)]
          rfl
        · cases ho
    · rw [List.length_append]
      exact Nat.lt_add_right _ (h.free_lt m hm)
    · rw [List.length_append]
      rcases Multiset.mem_cons.mp hm with rfl | hm
      · exact Nat.lt_succ_self _
      · exact Nat.lt_add_right _ (h.live_lt m hm)
  | some popped =>
    obtain ⟨m, rest⟩ := popped
    have hnew : s.allocator.new =
        (m, { freeList := rest, objects := s.allocator.objects.modify m Object.clear }) := by
      rw [Allocator.new, hpop]
    have hfree : ∀ n ∈ m ::ₘ F.contents rest, n < s.allocator.objects.length := by
      rw [← F.contents_pop _ _ _ hpop]
      exact h.free_lt
    rw [hnew]
    refine ⟨?_, h.modify m fun _ => rfl, fun n hn => ?_, fun n hn => ?_⟩
    · rw [List.length_modify]
      exact h.poolSize_le
    · rw [List.length_modify]
      exact hfree n (Multiset.mem_cons_of_mem hn)
    · rw [List.length_modify]
      rcases Multiset.mem_cons.mp hn with rfl | hn
      · exact hfree _ (Multiset.mem_cons_self _ _)
      · exact h.live_lt n hn

theorem step {t : Clients P F} (h : Sound s) (hstep : s.Step t) : Sound t := by
  cases hstep with
  | new => exact h.new
  | use m message hm =>
    refine ⟨?_, h.modify m fun _ => rfl, fun n hn => ?_, fun n hn => ?_⟩
    · rw [Allocator.use, List.length_modify]
      exact h.poolSize_le
    · rw [Allocator.use, List.length_modify]
      exact h.free_lt n hn
    · rw [Allocator.use, List.length_modify]
      exact h.live_lt n hn
  | delete m hm =>
    refine ⟨h.poolSize_le, h.pointer, fun n hn => ?_, fun n hn => ?_⟩
    · rw [Allocator.delete, F.contents_push] at hn
      rcases Multiset.mem_cons.mp hn with rfl | hn
      · exact h.live_lt _ hm
      · exact h.free_lt n hn
    · exact h.live_lt n (Multiset.mem_of_mem_erase hn)

end Sound

theorem sound_of_reachable {s : Clients P F} (h : (clients P F).Reachable s) : Sound s := by
  refine h.invariant (P := Sound) ?_ fun s t hs hstep => hs.step hstep
  rintro s rfl
  exact Sound.init

/-! ### What a length is worth -/

/-- A message that chunks can be appended to. -/
structure Safe (m : Message P) : Prop where
  /-- Its length is not too long. -/
  length_le : m.getLength ≤ P.maxMsgBytes
  /-- No append is outside the buffer. -/
  appends : ∀ chunks : List (Chunk P), chunks.foldlM Message.appendChunk m ≠ .error .outside
  /-- Whatever is received, nothing goes wrong. -/
  received : ∀ stream, ∃ r, m.startAppend.receiveChunks stream = .ok r

/-- The message is safe, or the program ends. -/
def Outcome.Refuses : Outcome P → Prop
  | .decoded m => Safe m
  | .callbackExit through => through ≠ .null

theorem appends_ne_outside {m : Message P} (hle : m.getLength ≤ P.maxMsgBytes)
    (chunks : List (Chunk P)) : chunks.foldlM Message.appendChunk m ≠ .error .outside := by
  induction chunks generalizing m with
  | nil =>
    intro h
    cases h
  | cons chunk chunks ih =>
    rw [List.foldlM_cons]
    by_cases hroom : m.writeIndex + (toBytes P.chunkBytes chunk).length ≤ m.getLength
    · obtain ⟨m', hstore, hinfo, _, _⟩ := m.store_eq _ hroom hle
      rw [Message.appendChunk, hstore]
      refine ih (m := m') ?_
      rw [Message.getLength, hinfo]
      exact hle
    · rw [Message.appendChunk, Message.store, if_neg hroom]
      intro h
      cases h

theorem receiveChunks_ok {m : Message P} (hle : m.getLength ≤ P.maxMsgBytes)
    (hlength : P.chunkBytes ∣ m.getLength) (hwrite : P.chunkBytes ∣ m.writeIndex)
    (stream : List (Chunk P)) : ∃ r, m.receiveChunks stream = .ok r := by
  induction stream generalizing m with
  | nil => exact ⟨_, rfl⟩
  | cons chunk rest ih =>
    by_cases hcan : m.canAppend = true
    · have hlt : m.writeIndex < m.getLength := by simpa [Message.canAppend] using hcan
      -- a whole chunk is missing
      have hroom : m.writeIndex + P.chunkBytes ≤ m.getLength := by
        obtain ⟨i, hi⟩ := hwrite
        obtain ⟨j, hj⟩ := hlength
        rw [hi, hj] at hlt ⊢
        have hij := Nat.mul_le_mul_left P.chunkBytes (Nat.lt_of_mul_lt_mul_left hlt)
        rw [Nat.mul_succ] at hij
        exact hij
      obtain ⟨m', hstore, hinfo, hindex, _⟩ :=
        m.store_eq (toBytes P.chunkBytes chunk) (by rw [length_toBytes]; exact hroom) hle
      have hsame : m'.getLength = m.getLength := by rw [Message.getLength, hinfo, Message.getLength]
      rw [length_toBytes] at hindex
      rw [Message.receiveChunks, if_pos hcan, Message.appendChunk, hstore]
      exact ih (m := m') (hsame.trans_le hle) (hsame ▸ hlength)
        (hindex ▸ Nat.dvd_add hwrite (Nat.dvd_refl _))
    · rw [Message.receiveChunks, if_neg hcan]
      exact ⟨_, rfl⟩

theorem safe_of_length_le {m : Message P} (hle : m.getLength ≤ P.maxMsgBytes)
    (hlength : P.chunkBytes ∣ m.getLength) : Safe m where
  length_le := hle
  appends := appends_ne_outside hle
  received := receiveChunks_ok (m := m.startAppend) hle hlength (Nat.dvd_zero _)

/-! ### Decoding -/

/-- The bits of the length in a header of a class. -/
def MessageClass.msgLengthBits (P : Params) : MessageClass → ℕ
  | .base => P.msgLengthBits
  | .template W => W.msgLengthBits

/-- The length that a header has for a class. -/
def MessageClass.headerLength (c : MessageClass) (chunk : Chunk P) : ℕ :=
  P.chunkBytes * (chunk.toNat % 2 ^ c.msgLengthBits P) % 2 ^ 32

theorem chunkBytes_dvd_headerLength (c : MessageClass) (chunk : Chunk P) :
    P.chunkBytes ∣ c.headerLength chunk := by
  have hdvd : P.chunkBytes ∣ 2 ^ 32 := by
    rcases P.chunkBytes_cases with h | h | h <;> rw [h] <;> decide
  exact (Nat.dvd_mod_iff hdvd).mpr (Nat.dvd_mul_right _ _)

/-- **What decoding ends in**: the base class looks at the length, the template class does not. -/
theorem decodeHeader_cases (o : Object P) (chunk : Chunk P) (c : MessageClass) :
    (∃ m, o.decodeHeader chunk c = .decoded m ∧ m.getLength = c.headerLength chunk ∧
      (c = .base → c.headerLength chunk ≤ P.maxMsgBytes)) ∨
    (c = .base ∧ P.maxMsgBytes < c.headerLength chunk ∧
      o.decodeHeader chunk c = .callbackExit o.allocator) := by
  cases c with
  | base =>
    have hlength : ((BitVec.ofNat (chunkBits P) P.chunkBytes *
        (chunk &&& (umfBitMask P.msgLengthBits).signExtend (chunkBits P))).setWidth 32).toNat =
        MessageClass.base.headerLength chunk := toNat_length P.bits_lt.2.2.2 chunk
    by_cases hlong : P.maxMsgBytes < MessageClass.base.headerLength chunk
    · refine Or.inr ⟨rfl, hlong, ?_⟩
      have hnone : Umf.decodeHeader chunk = none := by
        rw [Umf.decodeHeader, hlength, if_pos hlong]
      rw [Object.decodeHeader, hnone]
    · refine Or.inl ?_
      have hsome : ∃ info, Umf.decodeHeader chunk = some info ∧
          info.length.toNat = MessageClass.base.headerLength chunk := by
        rw [Umf.decodeHeader, hlength, if_neg hlong]
        exact ⟨_, rfl, hlength⟩
      obtain ⟨info, hinfo, hinfoLength⟩ := hsome
      refine ⟨{ o.toMessage with toHeaderInfo := info }, ?_, hinfoLength, fun _ =>
        Nat.le_of_not_lt hlong⟩
      rw [Object.decodeHeader, hinfo]
  | template W =>
    refine Or.inl ⟨_, rfl, toNat_length W.bits_lt.2.2.2 chunk, fun h => ?_⟩
    cases h

/-- **An oversized header is refused** exactly by the base class, and for a message that is not of
the pool. -/
theorem refuses_iff {s : Clients P F} (h : (clients P F).Reachable s) {m : ℕ} (hm : m ∈ s.live)
    (c : MessageClass) (chunk : Chunk P) :
    ∃ o, s.allocator.objects[m]? = some o ∧ ((o.decodeHeader chunk c).Refuses ↔
      c.headerLength chunk ≤ P.maxMsgBytes ∨ (c = .base ∧ poolSize ≤ m)) := by
  have hsound := sound_of_reachable h
  obtain ⟨o, ho⟩ : ∃ o, s.allocator.objects[m]? = some o :=
    ⟨_, List.getElem?_eq_getElem (hsound.live_lt m hm)⟩
  have hpointer := hsound.pointer m o ho
  refine ⟨o, ho, ?_⟩
  rcases decodeHeader_cases o chunk c with ⟨d, hdecode, hlength, hbase⟩ | ⟨rfl, hlong, hdecode⟩
  · rw [hdecode]
    constructor
    · intro hsafe
      exact Or.inl (hlength ▸ hsafe.length_le)
    · intro hcond
      have hle : c.headerLength chunk ≤ P.maxMsgBytes := by
        rcases hcond with hle | ⟨hc, _⟩
        · exact hle
        · exact hbase hc
      exact safe_of_length_le (hlength.trans_le hle) (hlength ▸ chunkBytes_dvd_headerLength c chunk)
  · rw [hdecode]
    constructor
    · intro hne
      refine Or.inr ⟨rfl, Nat.le_of_not_lt fun hlt => hne ?_⟩
      rw [hpointer, if_pos hlt]
    · rintro (hle | ⟨_, hlt⟩)
      · exact absurd hle (Nat.not_le_of_lt hlong)
      · intro hnull
        rw [hpointer, if_neg (Nat.not_lt_of_le hlt)] at hnull
        cases hnull

/-! ### A message of the pool -/

/-- The list that takes the message freed last. -/
def lifo : FreeList ℕ where
  T := List ℕ
  empty := []
  push l a := a :: l
  pop l := l.head?.map fun a => (a, l.tail)
  contents l := l
  contents_empty := rfl
  contents_push _ _ := rfl
  contents_pop l a l' h := by
    cases l with
    | nil => cases h
    | cons b l =>
      obtain ⟨rfl, rfl⟩ := Prod.mk.inj (Option.some.inj h)
      rfl

/-- The message put into the pool last is the first to be allocated. -/
theorem new_construct_lifo (n : ℕ) : (Allocator.construct P lifo (n + 1)).new.1 = n := by
  have hlength : (Allocator.construct P lifo n).objects.length = n := by
    rw [Allocator.objects_construct, List.length_replicate]
  exact hlength

/-- A client that has one message. -/
def oneMessage : Clients eightBytes lifo :=
  { allocator := (Allocator.construct eightBytes lifo poolSize).new.2
    live := (Allocator.construct eightBytes lifo poolSize).new.1 ::ₘ 0 }

theorem oneMessage_reachable : (clients eightBytes lifo).Reachable oneMessage :=
  .step (.init rfl) .new

theorem mem_oneMessage_live : 8191 ∈ oneMessage.live := by
  have hfirst : (Allocator.construct eightBytes lifo poolSize).new.1 = 8191 :=
    new_construct_lifo 8191
  have hlive : oneMessage.live = 8191 ::ₘ 0 := congrArg (· ::ₘ 0) hfirst
  rw [hlive]
  exact Multiset.mem_cons_self _ _

/-- For a header that says 1023 chunks the program does not end where it should. -/
theorem not_refuses_oneMessage : ¬ ∀ (F : FreeList ℕ) (s : Clients eightBytes F),
    (clients eightBytes F).Reachable s → ∀ m ∈ s.live, ∀ (c : MessageClass) chunk o,
      s.allocator.objects[m]? = some o → (o.decodeHeader chunk c).Refuses := by
  intro h
  have hsound := sound_of_reachable oneMessage_reachable
  have hlt := hsound.live_lt _ mem_oneMessage_live
  have hrefuses := h lifo oneMessage oneMessage_reachable _ mem_oneMessage_live .base 1023 _
    (List.getElem?_eq_getElem hlt)
  rcases decodeHeader_cases (oneMessage.allocator.objects[8191]) 1023 .base with
    ⟨_, _, _, hle⟩ | ⟨_, _, hdecode⟩
  · exact absurd (hle rfl) (by decide)
  · rw [hdecode] at hrefuses
    exact hrefuses (hsound.pointer _ _ (List.getElem?_eq_getElem hlt))

theorem refuses_iff_oneMessage : ∃ o, oneMessage.allocator.objects[8191]? = some o ∧
    ((o.decodeHeader 1023 .base).Refuses ↔
      MessageClass.base.headerLength (P := eightBytes) 1023 ≤ 1024 ∨
        (MessageClass.base = .base ∧ poolSize ≤ 8191)) :=
  refuses_iff oneMessage_reachable mem_oneMessage_live .base 1023

end Umf

end LeapPlatforms
