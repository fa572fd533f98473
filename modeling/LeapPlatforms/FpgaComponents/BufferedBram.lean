import LeapPlatforms.FpgaComponents.GuardedBram
import Mathlib.Data.List.Forall2

/-!
# The guarded block RAM behind queues

`mkBRAMSizedBuffered` puts a queue before the reads of a guarded block RAM, another before its
writes, and one behind its answers. Reads wait there when answers are not taken, and writes pass
them. A write never waits: it is forwarded in the cycle after it was accepted.

So an answer is that of a memory after some of the writes, in their order: all that were accepted in
earlier cycles than the read, and some of those that passed it.

## Main definitions

* `BufferedBram`, `BufferedBram.cycle` — the module
* `Buffering`, `buffering` — the runs, with what was accepted and delivered
* `Sees` — what an answer may be
* `Serves` — the invariant

## Main results

* `Serves.step`
* `buffered_bram`
-/

namespace LeapPlatforms

namespace FpgaComponents

open SyncRam

variable {α : Type}

/-! ### The module -/

/-- `mkBRAMSizedBuffered`. -/
structure BufferedBram (σ α : Type) where
  bram : GuardedBram σ α
  incomingReadReqQ : List ℕ
  incomingWriteReqQ : List (ℕ × α)
  responseQ : List α

namespace BufferedBram

variable {σ : Type}

/-- After a reset. -/
def reset (ram : σ) : BufferedBram σ α where
  bram := .reset ram
  incomingReadReqQ := []
  incomingWriteReqQ := []
  responseQ := []

/-- The rule can fire: there is a read, and a credit for it. -/
def fwdReadReq (s : BufferedBram σ α) : Bool :=
  s.incomingReadReqQ ≠ [] ∧ 0 < s.bram.bufferingAvailable

/-- The rule can fire: there is an answer, and room for it. The buffer shows what comes to it in
this cycle. -/
def recvResp (s : BufferedBram σ α) : Bool :=
  (s.bram.enqIntoFIFO ∨ s.bram.buffer ≠ []) ∧ s.responseQ.length < 2

/-- What the rules ask of the block RAM. A write is forwarded if there is one. -/
def forwarded (s : BufferedBram σ α) : Input α where
  readReq := if s.fwdReadReq then s.incomingReadReqQ.head? else none
  readRsp := s.recvResp
  write := s.incomingWriteReqQ.head?

/-- The guards of the methods, those of the queues. -/
structure Guards (s : BufferedBram σ α) (i : Input α) : Prop where
  readReq : i.readReq.isSome = true → s.incomingReadReqQ.length < 2
  readRsp : i.readRsp = true → s.responseQ ≠ []
  write : i.write.isSome = true → s.incomingWriteReqQ.length < 2

instance (s : BufferedBram σ α) (i : Input α) : Decidable (s.Guards i) :=
  decidable_of_iff ((i.readReq.isSome = true → s.incomingReadReqQ.length < 2) ∧
    (i.readRsp = true → s.responseQ ≠ []) ∧
      (i.write.isSome = true → s.incomingWriteReqQ.length < 2))
    ⟨fun h => ⟨h.1, h.2.1, h.2.2⟩, fun h => ⟨h.readReq, h.readRsp, h.write⟩⟩

/-- A cycle in which some methods are called. All rules that can fire do. -/
def cycle (C : Component α) (s : BufferedBram C.σ α) (i : Input α) (c : C.χ) :
    Option (BufferedBram C.σ α × Option α) :=
  if s.Guards i then
    (s.bram.cycle C s.forwarded c).map fun t =>
      ({ bram := t.1
         incomingReadReqQ :=
           (if s.fwdReadReq then s.incomingReadReqQ.tail else s.incomingReadReqQ) ++ i.readReq.toList
         incomingWriteReqQ := s.incomingWriteReqQ.tail ++ i.write.toList
         responseQ := (if i.readRsp then s.responseQ.tail else s.responseQ) ++ t.2.toList },
        if i.readRsp then s.responseQ.head? else none)
  else none

end BufferedBram

/-! ### Runs -/

/-- A read that was accepted, and how many writes had been accepted in earlier cycles. -/
structure ReadRequest where
  addr : ℕ
  before : ℕ

/-- An answer that was delivered, and how many writes had been accepted in earlier cycles. -/
structure ReadResponse (α : Type) where
  value : α
  before : ℕ

/-- The module, the flat memory behind its queues, and what was accepted and delivered. -/
structure Buffering (C : Component α) where
  bram : BufferedBram C.σ α
  flat : Flat α
  /-- What was in memory at the reset. -/
  mem : ℕ → α
  writes : List (ℕ × α)
  requests : List ReadRequest
  responses : List (ReadResponse α)

namespace Buffering

variable {C : Component α}

/-- After a reset, with some contents. -/
def reset (ram : C.σ) (mem : ℕ → α) : Buffering C where
  bram := .reset ram
  flat := .start mem
  mem := mem
  writes := []
  requests := []
  responses := []

/-- A cycle. -/
def fire (s : Buffering C) (i : Input α) (c : C.χ) : Option (Buffering C) :=
  (s.bram.cycle C i c).map fun t =>
    { bram := t.1
      flat := s.flat.cycle s.bram.forwarded
      mem := s.mem
      writes := s.writes ++ i.write.toList
      requests := s.requests ++ (i.readReq.map fun a => ⟨a, s.writes.length⟩).toList
      responses := s.responses ++ (t.2.map fun v => ⟨v, s.writes.length⟩).toList }

/-- The answers on their way: those that can be taken first. -/
def underway (s : Buffering C) : List α := s.bram.responseQ ++ s.bram.bram.waiting s.flat

end Buffering

/-- The runs of the module over a raw memory, whatever its user does. -/
def buffering (R : Ram α) : TransitionSystem (Buffering R.toComponent) where
  init s := ∃ ram mem, R.Rel ram (.start mem) ∧ s = .reset ram mem
  step s t := ∃ i c, InMemory R.inRange i ∧ s.fire i c = some t

/-- A memory after some writes. -/
def contents (mem : ℕ → α) (writes : List (ℕ × α)) : ℕ → α :=
  writes.foldl (fun mem w => Function.update mem w.1 w.2) mem

/-- What an answer to a request may be: the word at its address after the writes up to some place,
not before that where the request came, nor behind `last`. -/
def Sees (mem : ℕ → α) (writes : List (ℕ × α)) (r : ReadRequest) (v : α) (last : ℕ) : Prop :=
  ∃ n, r.before ≤ n ∧ n ≤ last ∧ n ≤ writes.length ∧ contents mem (writes.take n) r.addr = v

@[simp] theorem contents_nil (mem : ℕ → α) : contents mem [] = mem := rfl

theorem contents_append (mem : ℕ → α) (writes : List (ℕ × α)) (w : Option (ℕ × α)) :
    contents mem (writes ++ w.toList) = written (contents mem writes) w := by
  rw [contents, List.foldl_append]
  cases w <;> rfl

/-- What was seen stays so when more is written. -/
theorem Sees.append {mem : ℕ → α} {writes : List (ℕ × α)} {r : ReadRequest} {v : α} {last : ℕ}
    (h : Sees mem writes r v last) (more : List (ℕ × α)) : Sees mem (writes ++ more) r v last := by
  obtain ⟨n, hbefore, hlast, hle, hv⟩ := h
  refine ⟨n, hbefore, hlast, ?_, ?_⟩
  · rw [List.length_append]
    omega
  · rw [List.take_append_of_le_length hle]
    exact hv

theorem Sees.mono {mem : ℕ → α} {writes : List (ℕ × α)} {r : ReadRequest} {v : α} {last last' : ℕ}
    (h : Sees mem writes r v last) (hle : last ≤ last') : Sees mem writes r v last' := by
  obtain ⟨n, hbefore, hlast, hn, hv⟩ := h
  exact ⟨n, hbefore, Nat.le_trans hlast hle, hn, hv⟩

/-! ### The invariant -/

/-- What holds in a run. -/
structure Serves (R : Ram α) (s : Buffering R.toComponent) : Prop where
  credit : Credit R s.bram.bram s.flat
  /-- A write leaves its queue at once. -/
  write_le : s.bram.incomingWriteReqQ.length ≤ 1
  read_inRange : ∀ a ∈ s.bram.incomingReadReqQ, R.inRange a
  write_inRange : ∀ w ∈ s.bram.incomingWriteReqQ, R.inRange w.1
  /-- The requests are those that are answered, those whose answers are on their way, and those in
  the queue, for which enough was written. -/
  served : ∃ done answered owed held,
    s.writes = done ++ s.bram.incomingWriteReqQ ∧ s.flat.mem = contents s.mem done ∧
    s.requests = answered ++ owed ++ held ∧
    List.Forall₂ (fun r p => Sees s.mem s.writes r p.value p.before) answered s.responses ∧
    List.Forall₂ (fun r v => Sees s.mem s.writes r v s.writes.length) owed s.underway ∧
    held.map ReadRequest.addr = s.bram.incomingReadReqQ ∧ ∀ r ∈ held, r.before ≤ done.length

namespace Serves

variable {R : Ram α} {s t : Buffering R.toComponent}

theorem reset {ram : R.σ} {mem : ℕ → α} (h : R.Rel ram (.start mem)) :
    Serves R (.reset ram mem) where
  credit := Credit.reset h
  write_le := Nat.zero_le _
  read_inRange := by rintro a ⟨⟩
  write_inRange := by rintro w ⟨⟩
  served := by
    refine ⟨[], [], [], [], rfl, rfl, rfl, .nil, .nil, rfl, ?_⟩
    rintro r ⟨⟩

/-- An answer is taken into the queue if it is there. -/
theorem recvResp_eq (h : Serves R s) :
    s.bram.recvResp = true ↔
      s.bram.bram.waiting s.flat ≠ [] ∧ s.bram.responseQ.length < 2 := by
  have henq := h.credit.enqIntoFIFO_eq
  rw [BufferedBram.recvResp, decide_eq_true_iff, henq, GuardedBram.waiting]
  cases s.flat.sampled <;> simp

/-- The rules keep to the guards of the block RAM. -/
theorem allowed (h : Serves R s) : Allowed s.bram.bram s.flat s.bram.forwarded where
  readReq hreq := by
    rw [BufferedBram.forwarded] at hreq
    dsimp only at hreq
    split at hreq
    · next hfwd => exact (of_decide_eq_true hfwd).2
    · cases hreq
  readRsp hrsp := (h.recvResp_eq.mp hrsp).1

theorem inMemory (h : Serves R s) : InMemory R.inRange s.bram.forwarded where
  readReq a ha := by
    rw [BufferedBram.forwarded] at ha
    dsimp only at ha
    split at ha
    · exact h.read_inRange a (List.mem_of_mem_head? ha)
    · cases ha
  write a d ha := h.write_inRange _ (List.mem_of_mem_head? ha)

/-- What a cycle leaves in the queues, and owed by the block RAM. -/
structure Cycled (s : Buffering R.toComponent) (i : Input α) (t : BufferedBram R.σ α) : Prop where
  credit : Credit R t.bram (s.flat.cycle s.bram.forwarded)
  reads : t.incomingReadReqQ =
    (if s.bram.fwdReadReq then s.bram.incomingReadReqQ.tail else s.bram.incomingReadReqQ) ++
      i.readReq.toList
  writes : t.incomingWriteReqQ = s.bram.incomingWriteReqQ.tail ++ i.write.toList
  responses : t.responseQ =
    (if i.readRsp then s.bram.responseQ.tail else s.bram.responseQ) ++
      (if s.bram.recvResp then (s.bram.bram.waiting s.flat).head? else none).toList
  waiting : t.bram.waiting (s.flat.cycle s.bram.forwarded) =
    (if s.bram.recvResp then (s.bram.bram.waiting s.flat).tail else s.bram.bram.waiting s.flat) ++
      (s.bram.forwarded.readReq.map s.flat.mem).toList

/-- **One cycle** of a user that keeps to the guards. -/
theorem cycle (h : Serves R s) {i : Input α} (hi : s.bram.Guards i) (c : R.χ) :
    ∃ t, s.bram.cycle R.toComponent i c =
        some (t, if i.readRsp then s.bram.responseQ.head? else none) ∧ Cycled s i t := by
  obtain ⟨u, hu, hcredit, hqueued⟩ := h.credit.cycle h.allowed h.inMemory c
  rw [BufferedBram.cycle, if_pos hi, hu, Option.map_some]
  exact ⟨_, rfl, hcredit, rfl, rfl, rfl, congrArg QueuedRam.pending hqueued⟩

/-- What was on its way goes on, and the answer to what was forwarded comes behind it. -/
theorem Cycled.underway {i : Input α} {b : BufferedBram R.σ α} (h : Cycled s i b) :
    b.responseQ ++ b.bram.waiting (s.flat.cycle s.bram.forwarded) =
      (if i.readRsp then s.bram.responseQ.tail else s.bram.responseQ) ++
        s.bram.bram.waiting s.flat ++ (s.bram.forwarded.readReq.map s.flat.mem).toList := by
  have hhead (l : List α) (b : Bool) :
      (if b then l.head? else none).toList ++ (if b then l.tail else l) = l := by
    cases b with
    | false => rfl
    | true => cases l <;> rfl
  rw [h.responses, h.waiting, List.append_assoc, List.append_assoc, ← List.append_assoc _ _
    (s.bram.forwarded.readReq.map s.flat.mem).toList, hhead]

/-- A read that is forwarded sees all writes that were forwarded before it. -/
theorem forward {mem : ℕ → α} {done more : List (ℕ × α)} {owed held : List ReadRequest}
    {values : List α} (b : BufferedBram R.σ α)
    (howed : List.Forall₂ (fun r v => Sees mem (done ++ more) r v (done ++ more).length) owed values)
    (hheld : held.map ReadRequest.addr = b.incomingReadReqQ)
    (hbefore : ∀ r ∈ held, r.before ≤ done.length) :
    ∃ owed' held', owed ++ held = owed' ++ held' ∧
      List.Forall₂ (fun r v => Sees mem (done ++ more) r v (done ++ more).length) owed'
        (values ++ (b.forwarded.readReq.map (contents mem done)).toList) ∧
      held'.map ReadRequest.addr =
        (if b.fwdReadReq then b.incomingReadReqQ.tail else b.incomingReadReqQ) ∧
      ∀ r ∈ held', r.before ≤ done.length := by
  rw [BufferedBram.forwarded]
  dsimp only
  cases hfwd : b.fwdReadReq with
  | false =>
    refine ⟨owed, held, rfl, ?_, hheld, hbefore⟩
    rw [if_neg Bool.false_ne_true, Option.map_none, Option.toList_none, List.append_nil]
    exact howed
  | true =>
    have hne := (of_decide_eq_true hfwd).1
    cases held with
    | nil => exact absurd hheld.symm hne
    | cons r held =>
      rw [List.map_cons] at hheld
      refine ⟨owed ++ [r], held, by simp, ?_, ?_, fun q hq => hbefore q (List.mem_cons_of_mem _ hq)⟩
      · rw [if_pos rfl, ← hheld]
        refine List.rel_append howed
          (.cons ⟨done.length, hbefore r List.mem_cons_self, ?_, ?_, ?_⟩ .nil)
        · rw [List.length_append]
          omega
        · rw [List.length_append]
          omega
        · rw [List.take_left]
      · rw [if_pos rfl, ← hheld]
        rfl

/-- What is delivered is the first answer on its way. -/
theorem deliver {mem : ℕ → α} {writes : List (ℕ × α)} {owed : List ReadRequest}
    {queue rest : List α} {rsp : Bool} (hrsp : rsp = true → queue ≠ [])
    (howed : List.Forall₂ (fun r v => Sees mem writes r v writes.length) owed (queue ++ rest)) :
    ∃ out owed', owed = out ++ owed' ∧
      List.Forall₂ (fun r p => Sees mem writes r (ReadResponse.value p) p.before) out
        ((if rsp then queue.head? else none).map fun v => ⟨v, writes.length⟩).toList ∧
      List.Forall₂ (fun r v => Sees mem writes r v writes.length) owed'
        ((if rsp then queue.tail else queue) ++ rest) := by
  cases rsp with
  | false => exact ⟨[], owed, rfl, .nil, howed⟩
  | true =>
    cases queue with
    | nil => exact absurd rfl (hrsp rfl)
    | cons v queue =>
      cases howed with
      | cons hv howed => exact ⟨[_], _, rfl, .cons hv .nil, howed⟩

/-- What a step is. -/
theorem fire_eq (h : Serves R s) {i : Input α} {c : R.χ} (ht : s.fire i c = some t) :
    s.bram.Guards i ∧ ∃ b, Cycled s i b ∧ t =
      { bram := b
        flat := s.flat.cycle s.bram.forwarded
        mem := s.mem
        writes := s.writes ++ i.write.toList
        requests := s.requests ++ (i.readReq.map fun a => ⟨a, s.writes.length⟩).toList
        responses := s.responses ++ ((if i.readRsp then s.bram.responseQ.head? else none).map
          fun v => ⟨v, s.writes.length⟩).toList } := by
  obtain ⟨u, hu, rfl⟩ := Option.map_eq_some_iff.mp ht
  have hi : s.bram.Guards i := by
    rw [BufferedBram.cycle] at hu
    split at hu
    · next hi => exact hi
    · cases hu
  obtain ⟨b, hb, hcycled⟩ := h.cycle hi c
  obtain rfl := Option.some.inj (hu.symm.trans hb)
  exact ⟨hi, b, hcycled, rfl⟩

theorem step (h : Serves R s) {i : Input α} {c : R.χ} (hin : InMemory R.inRange i)
    (ht : s.fire i c = some t) : Serves R t := by
  obtain ⟨hi, b, hcycled, rfl⟩ := h.fire_eq ht
  obtain ⟨done, answered, owed, held, hwrites, hmem, hrequests, hanswered, howed, hheld, hbefore⟩ :=
    h.served
  -- the write queue has one entry at most, so it is empty after the rule
  have hqueue : s.bram.incomingWriteReqQ.head?.toList = s.bram.incomingWriteReqQ ∧
      s.bram.incomingWriteReqQ.tail = [] := by
    have hle := h.write_le
    cases hq : s.bram.incomingWriteReqQ with
    | nil => exact ⟨rfl, rfl⟩
    | cons w rest =>
      rw [hq, List.length_cons] at hle
      obtain rfl := List.length_eq_zero_iff.mp (show rest.length = 0 by omega)
      exact ⟨rfl, rfl⟩
  have hreads := hcycled.reads
  have hnewWrites : b.incomingWriteReqQ = i.write.toList := by
    rw [hcycled.writes, hqueue.2, List.nil_append]
  refine ⟨hcycled.credit, ?_, ?_, ?_, ?_⟩
  · show b.incomingWriteReqQ.length ≤ 1
    rw [hnewWrites]
    exact Option.length_toList_le
  · intro a ha
    rw [show Buffering.bram _ = b from rfl, hreads] at ha
    rcases List.mem_append.mp ha with ha | ha
    · refine h.read_inRange a ?_
      split at ha
      · exact List.mem_of_mem_tail ha
      · exact ha
    · exact hin.readReq a (Option.mem_toList.mp ha)
  · intro w hw
    rw [show Buffering.bram _ = b from rfl, hnewWrites] at hw
    exact hin.write w.1 w.2 (Option.mem_toList.mp hw)
  · rw [hwrites] at howed
    obtain ⟨owed', held', hsplit, howed', hheld', hbefore'⟩ := forward s.bram howed hheld hbefore
    rw [← hwrites, Buffering.underway, List.append_assoc, ← hmem] at howed'
    obtain ⟨out, owed'', hout, houtSees, howed''⟩ := deliver hi.readRsp howed'
    refine ⟨s.writes, answered ++ out, owed'',
      held' ++ (i.readReq.map fun a => ⟨a, s.writes.length⟩).toList, ?_, ?_, ?_, ?_, ?_, ?_, ?_⟩
    · show s.writes ++ i.write.toList = s.writes ++ b.incomingWriteReqQ
      rw [hnewWrites]
    · show written s.flat.mem s.bram.incomingWriteReqQ.head? = contents s.mem s.writes
      rw [hmem, ← contents_append, hqueue.1, hwrites]
    · show s.requests ++ _ = _
      rw [hrequests, List.append_assoc answered owed, hsplit, hout]
      simp
    · exact List.rel_append (hanswered.imp fun r p hsees => hsees.append _)
        (houtSees.imp fun r p hsees => hsees.append _)
    · show List.Forall₂ _ _ (b.responseQ ++ b.bram.waiting (s.flat.cycle s.bram.forwarded))
      rw [hcycled.underway, List.append_assoc]
      refine howed''.imp fun r v hsees => ?_
      refine (hsees.append _).mono ?_
      rw [List.length_append]
      exact Nat.le_add_right _ _
    · show _ = b.incomingReadReqQ
      rw [hreads, List.map_append, hheld']
      cases i.readReq <;> rfl
    · intro r hr
      rcases List.mem_append.mp hr with hr | hr
      · refine Nat.le_trans (hbefore' r hr) ?_
        rw [hwrites, List.length_append]
        exact Nat.le_add_right _ _
      · obtain ⟨a, _, rfl⟩ := Option.map_eq_some_iff.mp (Option.mem_toList.mp hr)
        exact Nat.le_refl _

/-- An answer that the block RAM owes goes to the queue if there is none. -/
theorem arrives (h : Serves R s) {i : Input α} {c : R.χ} (ht : s.fire i c = some t)
    (hqueue : s.bram.responseQ = []) (howed : s.bram.bram.waiting s.flat ≠ []) :
    t.bram.responseQ ≠ [] := by
  obtain ⟨-, b, hcycled, rfl⟩ := h.fire_eq ht
  have hrecv : s.bram.recvResp = true := by
    refine h.recvResp_eq.mpr ⟨howed, ?_⟩
    rw [hqueue]
    exact Nat.two_pos
  show b.responseQ ≠ []
  rw [hcycled.responses, hrecv, if_pos rfl]
  intro hnil
  cases hw : s.bram.bram.waiting s.flat with
  | nil => exact howed hw
  | cons v rest =>
    rw [hw] at hnil
    exact List.cons_ne_nil _ _ (List.append_eq_nil_iff.mp hnil).2

/-- A read is forwarded if the block RAM owes nothing. -/
theorem goes (h : Serves R s) {i : Input α} {c : R.χ} (ht : s.fire i c = some t)
    (howed : s.bram.bram.waiting s.flat = []) (hread : s.bram.incomingReadReqQ ≠ []) :
    t.bram.bram.waiting t.flat ≠ [] := by
  obtain ⟨-, b, hcycled, rfl⟩ := h.fire_eq ht
  have hcredit : 0 < s.bram.bram.bufferingAvailable := by
    have hlen := h.credit.length_waiting
    have hsum := h.credit.sum
    rw [howed, List.length_nil] at hlen
    omega
  have hfwd : s.bram.fwdReadReq = true := decide_eq_true ⟨hread, hcredit⟩
  show b.bram.waiting (s.flat.cycle s.bram.forwarded) ≠ []
  rw [hcycled.waiting, BufferedBram.forwarded, hfwd, if_pos rfl]
  intro hnil
  cases hq : s.bram.incomingReadReqQ with
  | nil => exact hread hq
  | cons a rest =>
    rw [hq] at hnil
    exact List.cons_ne_nil _ _ (List.append_eq_nil_iff.mp hnil).2

/-- Every request is answered, on its way to be, or in the queue. -/
theorem length_requests (h : Serves R s) : s.requests.length =
    s.responses.length + s.underway.length + s.bram.incomingReadReqQ.length := by
  obtain ⟨done, answered, owed, held, -, -, hrequests, hanswered, howed, hheld, -⟩ := h.served
  rw [hrequests, List.length_append, List.length_append, hanswered.length_eq, howed.length_eq,
    ← hheld, List.length_map]

/-- The answers are to the requests in their order. -/
theorem answered (h : Serves R s) {k : ℕ} {p : ReadResponse α} (hp : s.responses[k]? = some p) :
    ∃ r, s.requests[k]? = some r ∧ Sees s.mem s.writes r p.value p.before := by
  obtain ⟨done, answered, owed, held, -, -, hrequests, hanswered, -⟩ := h.served
  obtain ⟨hk, rfl⟩ := List.getElem?_eq_some_iff.mp hp
  have hk' : k < answered.length := by rwa [hanswered.length_eq]
  refine ⟨answered[k], ?_, hanswered.get hk' hk⟩
  rw [hrequests, List.append_assoc, List.getElem?_append_left hk', List.getElem?_eq_getElem hk']

end Serves

theorem serves_of_reachable {R : Ram α} {s : Buffering R.toComponent}
    (h : (buffering R).Reachable s) : Serves R s := by
  refine h.invariant (P := Serves R) ?_ ?_
  · rintro s ⟨ram, mem, hrel, rfl⟩
    exact Serves.reset hrel
  · rintro s t hs ⟨i, c, hin, ht⟩
    exact hs.step hin ht

/-- **The buffered block RAM** in every state reached. The answers are to the requests in their
order, each from a memory after the writes up to some place, which is not before those of earlier
cycles than the request, and not behind those of earlier cycles than the answer. No request is lost:
what is not answered is inside, an answer is there two cycles later at the latest, and what the
guards of the methods allow can be done. -/
theorem buffered_bram (R : Ram α) {s : Buffering R.toComponent} (h : (buffering R).Reachable s) :
    (∀ (k : ℕ) (p : ReadResponse α), s.responses[k]? = some p →
      ∃ r, s.requests[k]? = some r ∧ Sees s.mem s.writes r p.value p.before) ∧
    s.requests.length =
      s.responses.length + s.underway.length + s.bram.incomingReadReqQ.length ∧
    (s.responses.length < s.requests.length → s.bram.responseQ = [] →
      ∀ t u, (buffering R).step s t → (buffering R).step t u →
        t.bram.responseQ ≠ [] ∨ u.bram.responseQ ≠ []) ∧
    ∀ i, s.bram.Guards i → ∀ c, (s.fire i c).isSome = true := by
  have hs := serves_of_reachable h
  refine ⟨fun k p hp => hs.answered hp, hs.length_requests, ?_, fun i hi c => ?_⟩
  · rintro hopen hqueue t u ⟨i, c, hin, ht⟩ ⟨i', c', -, hu⟩
    rcases Decidable.em (s.bram.bram.waiting s.flat = []) with howed | howed
    · have hread : s.bram.incomingReadReqQ ≠ [] := by
        intro hnil
        have hlen := hs.length_requests
        rw [Buffering.underway, hqueue, howed, hnil] at hlen
        simp only [List.append_nil, List.length_nil] at hlen
        omega
      have hgone := hs.goes ht howed hread
      rcases Decidable.em (t.bram.responseQ = []) with hempty | hfull
      · exact Or.inr ((hs.step hin ht).arrives hu hempty hgone)
      · exact Or.inl hfull
    · exact Or.inl (hs.arrives ht hqueue howed)
  · obtain ⟨b, hb, -⟩ := hs.cycle hi c
    rw [Buffering.fire, hb]
    rfl

/-- A word is read and written at once, and the answer is taken when it is there. -/
def readBesideWrite : List (Input ℕ) :=
  [{ readReq := some 3, readRsp := false, write := some (3, 8) },
    { readReq := none, readRsp := false, write := none },
    { readReq := none, readRsp := false, write := none },
    { readReq := none, readRsp := true, write := none }]

theorem inMemory_readBesideWrite : ∀ i ∈ readBesideWrite, InMemory (InRange 3 5) i := by
  have hnone (rsp : Bool) : InMemory (InRange 3 5) (⟨none, rsp, none⟩ : Input ℕ) := by
    refine ⟨fun a ha => ?_, fun a d ha => ?_⟩
    · cases ha
    · cases ha
  have hthree : InRange 3 5 3 := ⟨by decide, by decide⟩
  intro i hi
  simp only [readBesideWrite, List.mem_cons, List.not_mem_nil, or_false] at hi
  rcases hi with rfl | rfl | rfl | rfl
  · refine ⟨fun a ha => ?_, fun a d ha => ?_⟩
    · obtain rfl := Option.some.inj ha
      exact hthree
    · obtain ⟨rfl, rfl⟩ := Prod.mk.inj (Option.some.inj ha)
      exact hthree
  · exact hnone false
  · exact hnone false
  · exact hnone true

theorem buffered_bram_readBesideWrite : ∃ s : Buffering (sized ℕ 3 5).toComponent,
    s.writes = [(3, 8)] ∧ s.requests = [⟨3, 0⟩] ∧ s.responses = [⟨0, 1⟩] ∧
      Sees s.mem s.writes ⟨3, 0⟩ 0 1 := by
  have hin := inMemory_readBesideWrite
  have hinit : (buffering (sized ℕ 3 5)).Reachable
      (.reset fiveWords (fiveWords.contents 3 5)) :=
    .init ⟨_, _, splitAgrees_of_built fiveWords_built, rfl⟩
  have h₁ := hinit.step ⟨_, low, hin _ (List.mem_of_getElem (i := 0) (h := by decide) rfl), rfl⟩
  have h₂ := h₁.step ⟨_, low, hin _ (List.mem_of_getElem (i := 1) (h := by decide) rfl), rfl⟩
  have h₃ := h₂.step ⟨_, low, hin _ (List.mem_of_getElem (i := 2) (h := by decide) rfl), rfl⟩
  have h₄ := h₃.step ⟨_, low, hin _ (List.mem_of_getElem (i := 3) (h := by decide) rfl), rfl⟩
  obtain ⟨r, hr, hsees⟩ := (buffered_bram _ h₄).1 0 ⟨0, 1⟩ rfl
  obtain rfl := Option.some.inj hr
  exact ⟨_, rfl, rfl, rfl, hsees⟩

end FpgaComponents

end LeapPlatforms
