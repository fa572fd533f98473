import LeapPlatforms.FpgaComponents.GuardedBram

/-!
# A block RAM shared by read ports

`mkBRAMPseudoMultiRead`: the ports share one guarded RAM. The queue `readReqPort` remembers which
port each pending read is of; only its first port may take the answer. Writing to the queue lets one
port ask in a cycle. The queue is unguarded, and the ports look at it before they use it.

## Main definitions

* `MultiRead`, `MultiRead.cycle` — the module
* `Reading`, `reading` — the runs, with what the ports asked for and got

## Main results

* `Routes.step`, `routes_of_reachable`
* `port_routing`
-/

namespace LeapPlatforms

namespace FpgaComponents

open SyncRam

variable {α : Type} {n : ℕ}

/-- `mkBRAMPseudoMultiRead`. -/
structure MultiRead (σ α : Type) (n : ℕ) where
  /-- `ram`. -/
  ram : GuardedBram σ α
  /-- `readReqPort`, of depth two. -/
  readReqPort : List (Fin n)

/-- The methods called in a cycle. -/
structure PortInput (α : Type) (n : ℕ) where
  /-- The port that asks, and for what. -/
  readReq : Option (Fin n × ℕ)
  /-- The port that takes an answer. -/
  readRsp : Option (Fin n)
  /-- `write`. -/
  write : Option (ℕ × α)

/-- What the RAM is asked. -/
def PortInput.toInput (i : PortInput α n) : Input α where
  readReq := i.readReq.map Prod.snd
  readRsp := i.readRsp.isSome
  write := i.write

namespace MultiRead

variable {σ : Type}

/-- A cycle. -/
def cycle (C : Component α) (s : MultiRead C.σ α n) (i : PortInput α n) (c : C.χ) :
    Option (MultiRead C.σ α n × Option α) :=
  if (i.readReq.isSome = true → s.readReqPort.length < 2) ∧
      (∀ p, i.readRsp = some p → s.readReqPort.head? = some p) then
    (s.ram.cycle C i.toInput c).map fun t =>
      ({ ram := t.1
         readReqPort := (if i.readRsp.isSome then s.readReqPort.tail else s.readReqPort) ++
          (i.readReq.map Prod.fst).toList }, t.2)
  else none

end MultiRead

/-! ### Runs -/

/-- The module, the flat memory, and what each port asked for and got. -/
structure Reading (R : Ram α) (n : ℕ) where
  /-- The module. -/
  multi : MultiRead R.σ α n
  /-- The flat memory. -/
  flat : Flat α
  /-- Who asked, and what was in memory then. -/
  asked : List (Fin n × α)
  /-- Who got an answer, and which. -/
  answered : List (Fin n × α)

/-- A cycle. -/
def Reading.fire {R : Ram α} (s : Reading R n) (i : PortInput α n) (c : R.χ) :
    Option (Reading R n) :=
  (s.multi.cycle R.toComponent i c).map fun t =>
    { multi := t.1
      flat := s.flat.cycle i.toInput
      asked := s.asked ++ (i.readReq.map fun x => (x.1, s.flat.mem x.2)).toList
      answered := s.answered ++ (i.readRsp.bind fun p => t.2.map fun v => (p, v)).toList }

/-- The runs of the module, whatever the ports do. -/
def reading (R : Ram α) (n : ℕ) : TransitionSystem (Reading R n) where
  init s := R.Rel s.multi.ram.ram s.flat ∧ ∃ mem, s.flat = .start mem ∧
    s.multi.ram = .reset s.multi.ram.ram ∧ s.multi.readReqPort = [] ∧ s.asked = [] ∧
    s.answered = []
  step s t := ∃ i c, InMemory R.inRange i.toInput ∧ s.fire i c = some t

/-- The answers that are owed. -/
def Reading.waiting {R : Ram α} (s : Reading R n) : List α := s.multi.ram.waiting s.flat

/-- What holds in a run. -/
structure Routes (R : Ram α) (s : Reading R n) : Prop where
  /-- The registers of the RAM. -/
  credit : Credit R s.multi.ram s.flat
  /-- There is a port for each pending read. -/
  length_eq : s.multi.readReqPort.length = s.waiting.length
  /-- What was asked for was answered, or is owed to the port that asked. -/
  asked_eq : s.asked = s.answered ++ s.multi.readReqPort.zip s.waiting

/-- One more read is asked for. -/
theorem zip_append_toList {ports : List (Fin n)} {answers : List α}
    (h : ports.length = answers.length) (req : Option (Fin n × ℕ)) (mem : ℕ → α) :
    (ports ++ (req.map Prod.fst).toList).zip (answers ++ ((req.map Prod.snd).map mem).toList) =
      ports.zip answers ++ (req.map fun x => (x.1, mem x.2)).toList := by
  rw [List.zip_append h]
  cases req <;> rfl

theorem Routes.step {R : Ram α} {s t : Reading R n} (h : Routes R s) {i : PortInput α n} {c : R.χ}
    (hin : InMemory R.inRange i.toInput) (ht : s.fire i c = some t) : Routes R t := by
  obtain ⟨u, hu, rfl⟩ := Option.map_eq_some_iff.mp ht
  rw [MultiRead.cycle] at hu
  split at hu
  · next hguard =>
    obtain ⟨v, hv, rfl⟩ := Option.map_eq_some_iff.mp hu
    have hallowed := h.credit.allowed hin hv
    obtain ⟨ram, hw, hcredit, hqueued⟩ := h.credit.cycle hallowed hin c
    obtain rfl := Option.some.inj (hv.symm.trans hw)
    have hpending : ram.waiting (s.flat.cycle i.toInput) =
        (if i.readRsp.isSome = true then s.waiting.tail else s.waiting) ++
          ((i.readReq.map Prod.snd).map s.flat.mem).toList := congrArg QueuedRam.pending hqueued
    have hlength := h.length_eq
    refine ⟨hcredit, ?_, ?_⟩
    · show ((if i.readRsp.isSome = true then s.multi.readReqPort.tail else s.multi.readReqPort) ++
        (i.readReq.map Prod.fst).toList).length = (ram.waiting (s.flat.cycle i.toInput)).length
      rw [hpending, List.length_append, List.length_append]
      cases i.readRsp <;> cases i.readReq <;> simp [hlength]
    · show s.asked ++ _ = s.answered ++ _ ++
        List.zip ((if i.readRsp.isSome = true then s.multi.readReqPort.tail
          else s.multi.readReqPort) ++ _) (ram.waiting (s.flat.cycle i.toInput))
      rw [hpending, h.asked_eq]
      cases hrsp : i.readRsp with
      | none =>
        show _ = s.answered ++ [] ++ (s.multi.readReqPort ++ _).zip (s.waiting ++ _)
        rw [zip_append_toList hlength, List.append_nil, List.append_assoc]
      | some p =>
        -- the port at the head takes the oldest answer
        obtain ⟨ports, hports⟩ : ∃ ports, s.multi.readReqPort = p :: ports := by
          have hhead := hguard.2 p hrsp
          cases hq : s.multi.readReqPort with
          | nil =>
            rw [hq] at hhead
            cases hhead
          | cons q ports =>
            rw [hq] at hhead
            exact ⟨ports, by rw [Option.some.inj hhead]⟩
        rw [hports, List.length_cons] at hlength
        obtain ⟨x, rest, hwaiting⟩ :=
          List.exists_cons_of_length_pos (l := s.waiting) (by omega)
        rw [hwaiting, List.length_cons] at hlength
        have hans : s.multi.ram.waiting s.flat = x :: rest := hwaiting
        have hisSome : i.toInput.readRsp = true := by
          show i.readRsp.isSome = true
          rw [hrsp]
          rfl
        rw [hports, hwaiting, hans, hisSome]
        show _ = s.answered ++ [(p, x)] ++ (ports ++ _).zip (rest ++ _)
        rw [zip_append_toList (Nat.succ.inj hlength)]
        simp
  · cases hu

theorem routes_of_reachable {R : Ram α} {s : Reading R n} (h : (reading R n).Reachable s) :
    Routes R s := by
  refine h.invariant (P := Routes R) ?_ ?_
  · rintro s ⟨hrel, mem, hflat, hram, hport, hasked, hanswered⟩
    rw [hflat] at hrel
    have hwaiting : s.waiting = [] := by
      rw [Reading.waiting, hflat, hram]
      rfl
    refine ⟨?_, ?_, ?_⟩
    · rw [hflat, hram]
      exact Credit.reset hrel
    · rw [hport, hwaiting]
      rfl
    · rw [hasked, hanswered, hport]
      rfl
  · rintro s t hs ⟨i, c, hin, ht⟩
    exact hs.step hin ht

/-! ### Ports -/

/-- What belongs to a port. -/
def ofPort (p : Fin n) (l : List (Fin n × α)) : List α :=
  (l.filter fun x => x.1 = p).map Prod.snd

theorem ofPort_append (p : Fin n) (l l' : List (Fin n × α)) :
    ofPort p (l ++ l') = ofPort p l ++ ofPort p l' := by
  rw [ofPort, List.filter_append, List.map_append]
  rfl

/-- **Each port** gets what it asked for, in its order, and is owed the rest; the queue has an entry
for each pending read, and is used neither when it is full nor when it is empty. Nothing but the
guards holds a port up. -/
theorem port_routing (R : Ram α) (n : ℕ) {s : Reading R n} (h : (reading R n).Reachable s) :
    (∀ p, ofPort p s.asked =
      ofPort p s.answered ++ ofPort p (s.multi.readReqPort.zip s.waiting)) ∧
    (s.asked = s.answered ++ s.multi.readReqPort.zip s.waiting ∧
      s.multi.readReqPort.length = s.waiting.length) ∧
    (∀ i c t, s.fire i c = some t →
      (i.readReq.isSome = true → s.multi.readReqPort.length < 2) ∧
      (i.readRsp.isSome = true → s.multi.readReqPort ≠ [])) ∧
    ∀ i, InMemory R.inRange i.toInput →
      (i.readReq.isSome = true → s.multi.readReqPort.length < 2) →
      (∀ p, i.readRsp = some p → s.multi.readReqPort.head? = some p) →
      ∀ c, (s.fire i c).isSome = true := by
  obtain ⟨hcredit, hlength, hasked⟩ := routes_of_reachable h
  refine ⟨fun p => ?_, ⟨hasked, hlength⟩, fun i c t ht => ?_, fun i hin hreq hrsp c => ?_⟩
  · rw [hasked, ofPort_append]
  · obtain ⟨u, hu, _⟩ := Option.map_eq_some_iff.mp ht
    rw [MultiRead.cycle] at hu
    split at hu
    · next hguard =>
      refine ⟨hguard.1, fun hsome hnil => ?_⟩
      obtain ⟨p, hp⟩ := Option.isSome_iff_exists.mp hsome
      have hhead := hguard.2 p hp
      rw [hnil] at hhead
      cases hhead
    · cases hu
  · have hallowed : Allowed s.multi.ram s.flat i.toInput := by
      refine ⟨fun hsome => ?_, fun hsome hnil => ?_⟩
      · -- two reads are pending when there is no credit
        have hsum := hcredit.sum
        have hlt := hreq (by rwa [PortInput.toInput, Option.isSome_map] at hsome)
        have hwaiting : s.waiting.length = _ := hcredit.length_waiting
        omega
      · obtain ⟨p, hp⟩ := Option.isSome_iff_exists.mp hsome
        have hhead := hrsp p hp
        have hzero : s.waiting = [] := hnil
        rw [hzero] at hlength
        rw [List.eq_nil_of_length_eq_zero hlength] at hhead
        cases hhead
    obtain ⟨t, ht, _⟩ := hcredit.cycle hallowed hin c
    rw [Reading.fire, MultiRead.cycle, if_pos ⟨hreq, hrsp⟩, ht]
    rfl

/-- The second port reads a word while it is written, the first one reads it again, and the second
one takes its answer. -/
def twoPorts : List (PortInput ℕ 2) :=
  [{ readReq := some (1, 2), readRsp := none, write := some (2, 7) },
    { readReq := some (0, 2), readRsp := none, write := none },
    { readReq := none, readRsp := some 1, write := none }]

theorem twoPorts_toInput : twoPorts.map PortInput.toInput = readWhileWritten := rfl

theorem port_routing_twoPorts : ∃ s : Reading (sized ℕ 3 5) 2,
    s.answered = [(1, 0)] ∧ s.multi.readReqPort = [0] ∧
      ofPort 0 s.asked = ofPort 0 s.answered ++ ofPort 0 (s.multi.readReqPort.zip s.waiting) := by
  have hin : ∀ i ∈ twoPorts, InMemory (InRange 3 5) i.toInput := by
    intro i hi
    refine inMemory_readWhileWritten _ ?_
    rw [← twoPorts_toInput]
    exact List.mem_map_of_mem hi
  have hinit : (reading (sized ℕ 3 5) 2).Reachable
      { multi := { ram := .reset fiveWords, readReqPort := [] }
        flat := .start (fiveWords.contents 3 5), asked := [], answered := [] } :=
    .init ⟨splitAgrees_of_built fiveWords_built, _, rfl, rfl, rfl, rfl, rfl⟩
  have h₁ := hinit.step ⟨_, low, hin _ (List.mem_of_getElem (i := 0) (h := by decide) rfl), rfl⟩
  have h₂ := h₁.step ⟨_, low, hin _ (List.mem_of_getElem (i := 1) (h := by decide) rfl), rfl⟩
  have h₃ := h₂.step ⟨_, low, hin _ (List.mem_of_getElem (i := 2) (h := by decide) rfl), rfl⟩
  exact ⟨_, rfl, rfl, (port_routing _ _ h₃).1 0⟩

end FpgaComponents

end LeapPlatforms
