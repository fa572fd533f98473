import LeapPlatforms.Foundation.QueuedRam
import LeapPlatforms.Foundation.TransitionSystem
import LeapPlatforms.FpgaComponents.Bram
import Mathlib.Data.List.Infix

/-!
# The guarded block RAM

`mkBRAMSizedM` puts the answers of a raw memory, which are there for one cycle, into a buffer. A
request takes a credit, and taking an answer gives it back. The raw memory is any that does what a
flat one does. In a cycle the rule goes first: the buffer is a bypass FIFO, so an answer can be
taken in the cycle in which it comes. The counters have the value of the start of the cycle, and go
up and down in one cycle.

With its flat memory the module is a memory that answers reads in order.

## Main definitions

* `LCounter.next`, `GuardedBram`, `GuardedBram.cycle` — the module
* `GuardedBram.waiting`, `Credit` — the answers that are owed, and what holds of the registers
* `Guarding`, `guarding` — the runs, with what was asked for and answered

## Main results

* `Credit.cycle` — one cycle, as that of a `QueuedRam`
* `guarded_bram`
-/

namespace LeapPlatforms

namespace FpgaComponents

open SyncRam

variable {α : Type}

/-- A counter of some bits that may go up and down in one cycle. -/
def LCounter.next (bits value : ℕ) (up down : Bool) : ℕ :=
  (value + up.toNat + 2 ^ bits - down.toNat) % 2 ^ bits

/-- `mkBRAMSizedM`. -/
structure GuardedBram (σ α : Type) where
  /-- `ram`. -/
  ram : σ
  /-- `buffer`. -/
  buffer : List α
  /-- `readReqMade`, of one bit. -/
  readReqMade : ℕ
  /-- `bufferingAvailable`, of two bits. -/
  bufferingAvailable : ℕ

namespace GuardedBram

variable {σ : Type}

/-- After a reset. -/
def reset (ram : σ) : GuardedBram σ α where
  ram := ram
  buffer := []
  readReqMade := 0
  bufferingAvailable := 2

/-- `enqIntoFIFO` fires: there is an answer, and room for it. -/
def enqIntoFIFO (s : GuardedBram σ α) : Bool := s.readReqMade = 1 ∧ s.buffer.length < 2

/-- The registers after a cycle, where `buffer` is what the rule leaves. -/
def after (s : GuardedBram σ α) (i : Input α) (ram : σ) (buffer : List α) : GuardedBram σ α where
  ram := ram
  buffer := if i.readRsp then buffer.tail else buffer
  readReqMade := LCounter.next 1 s.readReqMade i.readReq.isSome s.enqIntoFIFO
  bufferingAvailable := LCounter.next 2 s.bufferingAvailable i.readRsp i.readReq.isSome

/-- A cycle in which some methods are called. -/
def cycle (C : Component α) (s : GuardedBram C.σ α) (i : Input α) (c : C.χ) :
    Option (GuardedBram C.σ α × Option α) :=
  if i.readReq.isSome = true → 0 < s.bufferingAvailable then
    (C.cycle s.ram { i with readRsp := s.enqIntoFIFO } c).bind fun t =>
      let buffer := if s.enqIntoFIFO then s.buffer ++ t.2.toList else s.buffer
      if i.readRsp = true → buffer ≠ [] then
        some (s.after i t.1 buffer, if i.readRsp then buffer.head? else none)
      else none
  else none

/-- The answers that are owed: in the buffer, and on the way out of the raw memory. -/
def waiting (s : GuardedBram σ α) (f : Flat α) : List α :=
  s.buffer ++ (f.sampled.map Prod.snd).toList

end GuardedBram

/-! ### One cycle -/

section Cycle

variable {σ : Type}

/-- The memory that answers reads in order. -/
def queued (s : GuardedBram σ α) (f : Flat α) : QueuedRam ℕ α :=
  { contents := f.mem, pending := s.waiting f }

/-- A cycle of it: an answer is taken, then one is sampled, and then the memory is written. -/
def queuedCycle (q : QueuedRam ℕ α) (i : Input α) : QueuedRam ℕ α where
  contents := written q.contents i.write
  pending := (if i.readRsp then q.pending.tail else q.pending) ++ (i.readReq.map q.contents).toList

/-- The registers with the flat memory. -/
structure Credit (R : Ram α) (s : GuardedBram R.σ α) (f : Flat α) : Prop where
  /-- The raw memory is the flat one. -/
  rel : R.Rel s.ram f
  /-- A request was made in the last cycle. -/
  readReqMade : s.readReqMade = f.sampled.isSome.toNat
  /-- The credit. -/
  sum : s.readReqMade + s.buffer.length + s.bufferingAvailable = 2

/-- The addresses of a cycle are those of the memory. -/
structure InMemory (inRange : ℕ → Prop) (i : Input α) : Prop where
  readReq : ∀ a, i.readReq = some a → inRange a
  write : ∀ a d, i.write = some (a, d) → inRange a

/-- What the guards let a user do. -/
structure Allowed (s : GuardedBram σ α) (f : Flat α) (i : Input α) : Prop where
  /-- The guard of `readReq`. -/
  readReq : i.readReq.isSome = true → 0 < s.bufferingAvailable
  /-- The guard of `readRsp`. -/
  readRsp : i.readRsp = true → s.waiting f ≠ []

end Cycle

namespace Credit

variable {R : Ram α} {s : GuardedBram R.σ α} {f : Flat α}

/-- **The rule** is never blocked. -/
theorem enqIntoFIFO_eq (h : Credit R s f) : s.enqIntoFIFO = f.sampled.isSome := by
  have hmade := h.readReqMade
  have hsum := h.sum
  rw [GuardedBram.enqIntoFIFO]
  cases hs : f.sampled with
  | none =>
    rw [hs] at hmade
    have hzero : s.readReqMade = 0 := hmade
    simp [hzero]
  | some x =>
    rw [hs] at hmade
    have hone : s.readReqMade = 1 := hmade
    simp [hone]
    omega

/-- The buffer after the rule. -/
theorem buffer_eq (h : Credit R s f) :
    (if s.enqIntoFIFO = true then s.buffer ++ (f.sampled.map Prod.snd).toList else s.buffer) =
      s.waiting f := by
  rw [h.enqIntoFIFO_eq, GuardedBram.waiting]
  cases f.sampled <;> simp

/-- What is owed is in the buffer, or about to go there. -/
theorem length_waiting (h : Credit R s f) :
    (s.waiting f).length = s.readReqMade + s.buffer.length := by
  rw [h.readReqMade, GuardedBram.waiting, List.length_append, Nat.add_comm]
  congr 1
  cases f.sampled <;> rfl

/-- **One cycle** of a user that keeps to the guards. -/
theorem cycle (h : Credit R s f) {i : Input α} (hi : Allowed s f i) (hin : InMemory R.inRange i)
    (c : R.χ) :
    ∃ t, GuardedBram.cycle R.toComponent s i c =
        some (t, if i.readRsp = true then (s.waiting f).head? else none) ∧
      Credit R t (f.cycle i) ∧ queued t (f.cycle i) = queuedCycle (queued s f) i := by
  obtain ⟨ram, hcycle, hrel⟩ := R.implements.cycle s.ram f { i with readRsp := s.enqIntoFIFO } c
    h.rel ⟨h.enqIntoFIFO_eq, hin.readReq, hin.write⟩
  have hmade := h.readReqMade
  have hsum := h.sum
  have hmade' : (s.after i ram (s.waiting f)).readReqMade = i.readReq.isSome.toNat := by
    have hle := Bool.toNat_le i.readReq.isSome
    show (s.readReqMade + i.readReq.isSome.toNat + 2 ^ 1 - s.enqIntoFIFO.toNat) % 2 ^ 1 = _
    rw [h.enqIntoFIFO_eq, hmade]
    omega
  refine ⟨s.after i ram (s.waiting f), ?_, ⟨hrel, ?_, ?_⟩, ?_⟩
  · rw [GuardedBram.cycle, if_pos hi.readReq, hcycle, Option.bind_some]
    dsimp only
    rw [h.buffer_eq, if_pos hi.readRsp]
  · rw [hmade', Flat.cycle, Option.isSome_map]
  · -- a credit goes to the request, and comes back with the answer
    have hwaiting := h.length_waiting
    have hbuffer : (s.after i ram (s.waiting f)).buffer.length + i.readRsp.toNat =
        (s.waiting f).length := by
      show (if i.readRsp = true then (s.waiting f).tail else s.waiting f).length + _ = _
      cases hrsp : i.readRsp with
      | false => rfl
      | true =>
        have hpos := List.length_pos_of_ne_nil (hi.readRsp hrsp)
        show (s.waiting f).tail.length + 1 = _
        rw [List.length_tail]
        omega
    have havailable : (s.after i ram (s.waiting f)).bufferingAvailable + i.readReq.isSome.toNat =
        s.bufferingAvailable + i.readRsp.toNat := by
      have hreq := hi.readReq
      have hrsp := Bool.toNat_le i.readRsp
      show (s.bufferingAvailable + i.readRsp.toNat + 2 ^ 2 - i.readReq.isSome.toNat) % 2 ^ 2 + _ = _
      cases hr : i.readReq.isSome with
      | false =>
        rw [Bool.toNat_false]
        omega
      | true =>
        have hpos := hreq hr
        rw [Bool.toNat_true]
        omega
    omega
  · have hsampled : ((f.cycle i).sampled.map Prod.snd).toList = (i.readReq.map f.mem).toList := by
      rw [Flat.cycle, Option.map_map]
      rfl
    show QueuedRam.mk (f.cycle i).mem (_ ++ ((f.cycle i).sampled.map Prod.snd).toList) = _
    rw [hsampled]
    rfl

/-- A cycle that is possible is one that the guards allow. -/
theorem allowed (h : Credit R s f) {i : Input α} (hin : InMemory R.inRange i) {c : R.χ}
    {t : GuardedBram R.σ α × Option α} (ht : GuardedBram.cycle R.toComponent s i c = some t) :
    Allowed s f i := by
  rw [GuardedBram.cycle] at ht
  split at ht
  · next hreq =>
    refine ⟨hreq, fun hrsp => ?_⟩
    obtain ⟨ram, hcycle, _⟩ := R.implements.cycle s.ram f { i with readRsp := s.enqIntoFIFO } c
      h.rel ⟨h.enqIntoFIFO_eq, hin.readReq, hin.write⟩
    rw [hcycle, Option.bind_some] at ht
    dsimp only at ht
    rw [h.buffer_eq] at ht
    split at ht
    · next hne => exact hne hrsp
    · cases ht
  · cases ht

theorem reset {ram : R.σ} {mem : ℕ → α} (h : R.Rel ram (.start mem)) :
    Credit R (.reset ram) (.start mem) where
  rel := h
  readReqMade := rfl
  sum := rfl

end Credit

/-! ### Runs -/

/-- The module, the flat memory, and what was read of it and answered. -/
structure Guarding (C : Component α) where
  /-- The module. -/
  bram : GuardedBram C.σ α
  /-- The flat memory. -/
  flat : Flat α
  /-- What was in memory at each request. -/
  asked : List α
  /-- What was answered. -/
  answered : List α

namespace Guarding

variable {C : Component α}

/-- After a reset, with some contents. -/
def reset (ram : C.σ) (mem : ℕ → α) : Guarding C where
  bram := .reset ram
  flat := .start mem
  asked := []
  answered := []

/-- A cycle. -/
def fire (s : Guarding C) (i : Input α) (c : C.χ) : Option (Guarding C) :=
  (s.bram.cycle C i c).map fun t =>
    { bram := t.1
      flat := s.flat.cycle i
      asked := s.asked ++ (i.readReq.map s.flat.mem).toList
      answered := s.answered ++ t.2.toList }

/-- What is asked for is answered, in its order, or is owed, and only the guards hold a user up. -/
structure Behaves (s : Guarding C) (inRange : ℕ → Prop) : Prop where
  /-- Nothing is lost, repeated or overtaken. -/
  asked_eq : s.asked = s.answered ++ s.bram.waiting s.flat
  /-- What is owed is in the buffer, or about to go there. -/
  length_eq : (s.bram.waiting s.flat).length = s.bram.readReqMade + s.bram.buffer.length
  /-- What the guards allow can be done. -/
  fire_isSome : ∀ i, Allowed s.bram s.flat i → InMemory inRange i → ∀ c,
    (s.fire i c).isSome = true

end Guarding

/-- The runs of the module over some raw memories, whatever its user does. -/
def guarding (C : Component α) (inRange : ℕ → Prop) (start : C.σ → (ℕ → α) → Prop) :
    TransitionSystem (Guarding C) where
  init s := ∃ ram mem, start ram mem ∧ s = .reset ram mem
  step s t := ∃ i c, InMemory inRange i ∧ s.fire i c = some t

/-- The runs of the module over a raw memory that is one. -/
def guardingRam (R : Ram α) : TransitionSystem (Guarding R.toComponent) :=
  guarding R.toComponent R.inRange fun ram mem => R.Rel ram (.start mem)

/-- What holds in a run. -/
structure Answers (R : Ram α) (s : Guarding R.toComponent) : Prop where
  /-- The registers. -/
  credit : Credit R s.bram s.flat
  /-- What was asked for was answered, or is owed. -/
  asked_eq : s.asked = s.answered ++ s.bram.waiting s.flat

namespace Answers

variable {R : Ram α} {s t : Guarding R.toComponent}

theorem step (h : Answers R s) {i : Input α} {c : R.χ} (hin : InMemory R.inRange i)
    (ht : s.fire i c = some t) : Answers R t := by
  obtain ⟨u, hu, rfl⟩ := Option.map_eq_some_iff.mp ht
  have hallowed := h.credit.allowed hin hu
  obtain ⟨v, hv, hcredit, hqueued⟩ := h.credit.cycle hallowed hin c
  obtain rfl := Option.some.inj (hu.symm.trans hv)
  refine ⟨hcredit, ?_⟩
  have hpending := congrArg QueuedRam.pending hqueued
  show s.asked ++ _ = s.answered ++ _ ++ v.waiting (s.flat.cycle i)
  rw [show v.waiting (s.flat.cycle i) = _ from hpending, h.asked_eq]
  dsimp only [queuedCycle, queued]
  cases hrsp : i.readRsp with
  | false => simp
  | true =>
    obtain ⟨x, rest, hwaiting⟩ := List.exists_cons_of_ne_nil (hallowed.readRsp hrsp)
    simp [hwaiting]

theorem behaves (h : Answers R s) : s.Behaves R.inRange where
  asked_eq := h.asked_eq
  length_eq := h.credit.length_waiting
  fire_isSome i hi hin c := by
    obtain ⟨t, ht, _⟩ := h.credit.cycle hi hin c
    rw [Guarding.fire, ht]
    rfl

end Answers

theorem answers_of_reachable {R : Ram α} {s : Guarding R.toComponent}
    (h : (guardingRam R).Reachable s) : Answers R s := by
  refine h.invariant (P := Answers R) ?_ ?_
  · rintro s ⟨ram, mem, hrel, rfl⟩
    exact ⟨Credit.reset hrel, rfl⟩
  · rintro s t hs ⟨i, c, hin, ht⟩
    exact hs.step hin ht

/-- **The guarded block RAM** in every state reached: the credit adds up, the rule is not blocked,
and the module behaves as a memory. -/
theorem guarded_bram (R : Ram α) {s : Guarding R.toComponent} (h : (guardingRam R).Reachable s) :
    s.bram.readReqMade + s.bram.buffer.length + s.bram.bufferingAvailable = 2 ∧
    (s.bram.readReqMade = 1 → s.bram.enqIntoFIFO = true) ∧ s.Behaves R.inRange := by
  have hanswers := answers_of_reachable h
  have hmade := hanswers.credit.readReqMade
  refine ⟨hanswers.credit.sum, fun hone => ?_, hanswers.behaves⟩
  rw [hanswers.credit.enqIntoFIFO_eq]
  rw [hone] at hmade
  cases hs : s.flat.sampled.isSome with
  | true => rfl
  | false =>
    rw [hs] at hmade
    cases hmade

variable (α) in
/-- The raw memory of `mkBRAMSized`. -/
def sized (addrSz size : ℕ) : Ram α where
  toComponent := split α addrSz size
  inRange := InRange addrSz size
  Rel := SplitAgrees addrSz size
  implements := split_implements addrSz size

/-- Five words of zeros. -/
def fiveWords : SplitRam ℕ := .plain { rows := 5, ram := fun _ => 0, readData := 0 }

theorem fiveWords_built : fiveWords.Built 3 5 := ⟨by decide, rfl⟩

/-- Wires that are low. -/
def low : Fin 4 → Wires ℕ := fun _ => { readAddr := 0, undef := 0 }

/-- A word is read while it is written, then read again, and then an answer is taken. -/
def readWhileWritten : List (Input ℕ) :=
  [{ readReq := some 2, readRsp := false, write := some (2, 7) },
    { readReq := some 2, readRsp := false, write := none },
    { readReq := none, readRsp := true, write := none }]

theorem inMemory_readWhileWritten : ∀ i ∈ readWhileWritten, InMemory (InRange 3 5) i := by
  intro i hi
  have htwo : InRange 3 5 2 := ⟨by decide, by decide⟩
  simp only [readWhileWritten, List.mem_cons, List.not_mem_nil, or_false] at hi
  rcases hi with rfl | rfl | rfl
  · refine ⟨fun a ha => ?_, fun a d ha => ?_⟩
    · obtain rfl := Option.some.inj ha
      exact htwo
    · obtain ⟨rfl, rfl⟩ := Prod.mk.inj (Option.some.inj ha)
      exact htwo
  · refine ⟨fun a ha => ?_, fun a d ha => ?_⟩
    · obtain rfl := Option.some.inj ha
      exact htwo
    · cases ha
  · refine ⟨fun a ha => ?_, fun a d ha => ?_⟩
    · cases ha
    · cases ha

theorem guarded_bram_readWhileWritten : ∃ s : Guarding (sized ℕ 3 5).toComponent,
    s.asked = [0, 7] ∧ s.answered = [0] ∧
      s.bram.readReqMade + s.bram.buffer.length + s.bram.bufferingAvailable = 2 := by
  have hin := inMemory_readWhileWritten
  have hinit : (guardingRam (sized ℕ 3 5)).Reachable
      (.reset fiveWords (fiveWords.contents 3 5)) :=
    .init ⟨_, _, splitAgrees_of_built fiveWords_built, rfl⟩
  have h₁ := hinit.step ⟨_, low, hin _ (List.mem_of_getElem (i := 0) (h := by decide) rfl), rfl⟩
  have h₂ := h₁.step ⟨_, low, hin _ (List.mem_of_getElem (i := 1) (h := by decide) rfl), rfl⟩
  have h₃ := h₂.step ⟨_, low, hin _ (List.mem_of_getElem (i := 2) (h := by decide) rfl), rfl⟩
  exact ⟨_, rfl, rfl, (guarded_bram _ h₃).1⟩

end FpgaComponents

end LeapPlatforms
