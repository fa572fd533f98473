import LeapPlatforms.BlueNocPcie.Commands
import LeapPlatforms.Foundation.TransitionSystem

/-!
# The command list of a call

`bluenoc_read` and `bluenoc_write` write a command for each entry of the list, as long as the board
has slots, and wait for slots in between; then they wait for the DMA. Both waits can be interrupted.
The call then unmaps its pages and returns, whatever was written, and leaves the board with the
rest.

## Main definitions

* `Driver` — a direction of the driver, with what the board has of it
* `Enabled`, `Driver.next` — the steps of the calls, of the interrupt handler and of the board
* `Terminated`, `Driver.Sound` — what is asked of the list and of the pages
* `Careful` — a call is not interrupted too late
* `Inv` — the invariant of the runs in which none is

## Main results

* `Inv.next` — the step lemma
* `sound_iff` — over every run
* `commands_cover` — a list that was written to its end
-/

namespace LeapPlatforms

namespace BlueNocPcie

/-! ### The code -/

/-- `bluenoc_read` and `bluenoc_write`. -/
inductive Direction
  | read
  | write
  deriving DecidableEq

/-- Where a call is. -/
inductive Phase
  /-- There is no call. -/
  | idle
  /-- In the loop over the list. -/
  | sending
  /-- Waiting for a slot. -/
  | stalled
  /-- Waiting for the DMA. -/
  | waiting
  deriving DecidableEq

/-- What the driver last read of the board's status. A write is never flushed. -/
structure Status where
  buffersLevel : BitVec 5 := 0
  queueFull : Bool := false
  flushed : Bool := false
  completed : Bool := false

/-- A direction of the driver: the call with its locals, the commands that it wrote, the status, the
commands that the board still has, and the two flags of its status register. -/
structure Driver where
  phase : Phase := .idle
  mapped : Option Mapped := none
  sg : List Segment := []
  slotsFree : BitVec 32 := 0
  done : Bool := false
  written : List (BitVec 64) := []
  status : Status := {}
  outstanding : List (BitVec 64) := []
  boardFlushed : Bool := false
  boardCompleted : Bool := false

/-- What happens next: a call, the interrupt handler, the turns of the two loops, how a call ends,
and what the board does. -/
inductive Action
  | call (debugDma : Bool) (m : Mapped)
  | update (buffersLevel : BitVec 5) (queueFull : Bool)
  | send
  | stall (buffersLevel : BitVec 5) (queueFull : Bool)
  | wake
  | finish
  | interrupt
  | perform
  | flush

namespace Driver

variable (d : Direction) (s : Driver)

/-- The wait for the DMA ends. -/
def finished : Bool := s.status.completed || (d = .read && s.status.flushed)

/-- `update_dma_buffer_status`. -/
def update (buffersLevel : BitVec 5) (queueFull : Bool) : Driver :=
  { s with status := ⟨buffersLevel, queueFull, s.boardFlushed, s.boardCompleted⟩ }

/-- `writeq`: a board that has flushed a read throws the rest of the list away. -/
def writeq (c : BitVec 64) : Driver :=
  { s with
    written := s.written ++ [c]
    outstanding := if s.boardFlushed then s.outstanding else s.outstanding ++ [c] }

/-- `slots_free = 16 - buffers_level`. -/
def freeSlots : BitVec 32 := 16 - s.status.buffersLevel.setWidth 32

/-- The list is mapped, and the call has the mutex: `clear_dma_status`, and the loop begins. -/
def begin (m : Mapped) : Driver where
  phase := .sending
  mapped := some m
  sg := m.visited
  slotsFree := s.freeSlots
  status := { s.status with flushed := false, completed := false }
  outstanding := s.outstanding

/-- A turn of the loop that has a slot. -/
def send : Driver :=
  match s.sg with
  | [] => s
  | e :: rest =>
    { s.writeq (markSlots s.slotsFree (dmaCmd rest.isEmpty e)) with
      sg := rest
      slotsFree := s.slotsFree - 1
      phase := if rest.isEmpty then .waiting else .sending }

/-- The wait for a slot is over. -/
def wake : Driver :=
  if d = .read ∧ s.status.flushed = true then
    { s.writeq endCmd with done := true, phase := .waiting }
  else
    { s with slotsFree := s.freeSlots, phase := .sending }

/-- The board is done with a command. -/
def perform : Driver :=
  { s with
    outstanding := s.outstanding.tail
    boardCompleted := s.boardCompleted || s.outstanding.head?.any isEnd }

/-- The board ends a read. -/
def flush : Driver := { s with outstanding := [], boardFlushed := true }

/-- A call that is refused, or that does not get the mutex, writes nothing and leaves everything as
it is. A call that ends gives the mutex back and unmaps its pages. -/
def next : Action → Driver
  | .call debugDma m => if s.phase = .idle ∧ m.refused debugDma = false then s.begin m else s
  | .update level full => s.update level full
  | .send => s.send
  | .stall level full => { s.update level full with phase := .stalled }
  | .wake => s.wake d
  | .finish => { s with phase := .idle }
  | .interrupt => { s with phase := .idle }
  | .perform => s.perform
  | .flush => s.flush

end Driver

/-- When an action can be taken. A wait is only interrupted while what it waits for is not there. -/
def Enabled (d : Direction) (s : Driver) : Action → Prop
  | .call _ _ | .update _ _ => True
  | .send => s.phase = .sending ∧ s.slotsFree ≠ 0
  | .stall _ _ => s.phase = .sending ∧ s.slotsFree = 0
  | .wake => s.phase = .stalled ∧ s.status.queueFull = false
  | .finish => s.phase = .waiting ∧ s.finished d = true
  | .interrupt => s.phase = .stalled ∧ s.status.queueFull = true ∨
      s.phase = .waiting ∧ s.finished d = false
  | .perform => s.outstanding ≠ []
  | .flush => d = .read

instance (d : Direction) (s : Driver) (a : Action) : Decidable (Enabled d s a) := by
  cases a <;> unfold Enabled <;> infer_instance

/-- A direction of the driver from the probe on. -/
def driver (d : Direction) : TransitionSystem Driver where
  init s := s = {}
  step s t := ∃ a, Enabled d s a ∧ t = s.next d a

/-! ### What is asked of it -/

/-- The last command ends the list, and no other does. -/
def Terminated (l : List (BitVec 64)) : Prop :=
  ∃ init last, l = init ++ [last] ∧ isEnd last = true ∧ ∀ c ∈ init, isEnd c = false

/-- A call that is over has written nothing, or a list that ends; and the commands that the board
has are of a call whose pages are mapped. -/
structure Driver.Sound (s : Driver) : Prop where
  list : s.phase = .idle → s.written = [] ∨ Terminated s.written
  pages : ∀ c ∈ s.outstanding, s.phase ≠ .idle ∧ c ∈ s.written

/-- A call is only interrupted in its loop before it has written a command, and afterwards when the
board has none. -/
def Careful (s : Driver) (a : Action) : Prop :=
  match a with
  | .interrupt => (s.phase = .stalled → s.written = []) ∧ (s.phase = .waiting → s.outstanding = [])
  | _ => True

/-- What holds in the runs in which the calls are interrupted with care. -/
structure Inv (s : Driver) : Prop where
  pending : s.phase = .sending ∨ s.phase = .stalled →
    s.sg ≠ [] ∧ (∀ c ∈ s.written, isEnd c = false) ∧ s.boardCompleted = false
  ended : s.phase = .waiting → Terminated s.written
  returned : s.phase = .idle → (s.written = [] ∨ Terminated s.written) ∧ s.outstanding = []
  suffix : s.outstanding <:+ s.written
  completed : s.boardCompleted = true → s.outstanding = []
  flushed : s.boardFlushed = true → s.outstanding = []
  sawCompleted : s.status.completed = true → s.boardCompleted = true
  sawFlushed : s.status.flushed = true → s.boardFlushed = true

/-! ### Lists that end -/

section Terminated

variable {l : List (BitVec 64)} {c : BitVec 64}

theorem Terminated.snoc (hl : ∀ c ∈ l, isEnd c = false) (hc : isEnd c = true) :
    Terminated (l ++ [c]) := ⟨l, c, rfl, hc, hl⟩

theorem Terminated.exists_end (h : Terminated l) : ∃ c ∈ l, isEnd c = true := by
  obtain ⟨init, last, rfl, hlast, -⟩ := h
  exact ⟨last, List.mem_append_right _ List.mem_cons_self, hlast⟩

/-- Nothing is behind the command that ends a list. -/
theorem Terminated.suffix_eq_nil {r : List (BitVec 64)} (h : Terminated l) (hs : c :: r <:+ l)
    (hc : isEnd c = true) : r = [] := by
  obtain ⟨init, last, rfl, -, hinit⟩ := h
  obtain ⟨front, hfront⟩ := hs
  rcases List.eq_nil_or_concat r with rfl | ⟨r', e, rfl⟩
  · rfl
  · have hsplit : (front ++ c :: r') ++ [e] = init ++ [last] := by
      rw [← hfront, List.append_assoc, List.cons_append, List.concat_eq_append]
    have heq := (List.append_inj' hsplit rfl).1
    have hmem : c ∈ init := by
      rw [← heq]
      exact List.mem_append_right _ List.mem_cons_self
    rw [hinit c hmem] at hc
    cases hc

theorem not_terminated (hl : ∀ c ∈ l, isEnd c = false) : ¬ Terminated l := by
  intro h
  obtain ⟨c, hmem, hc⟩ := h.exists_end
  rw [hl c hmem] at hc
  cases hc

end Terminated

/-! ### The steps -/

section Steps

variable {d : Direction} {s : Driver}

theorem inv_start : Inv {} where
  pending h := by simp at h
  ended h := by cases h
  returned _ := ⟨Or.inl rfl, rfl⟩
  suffix := List.suffix_refl _
  completed _ := rfl
  flushed _ := rfl
  sawCompleted h := by cases h
  sawFlushed h := by cases h

theorem Inv.begin (h : Inv s) (hidle : s.phase = .idle) (m : Mapped) : Inv (s.begin m) where
  pending _ := ⟨m.visited_ne_nil, fun c hc => absurd hc List.not_mem_nil, rfl⟩
  ended hw := by cases hw
  returned hi := by cases hi
  suffix := by
    show s.outstanding <:+ []
    rw [(h.returned hidle).2]
  completed hc := by cases hc
  flushed hf := by cases hf
  sawCompleted hc := by cases hc
  sawFlushed hf := by cases hf

theorem Inv.update (h : Inv s) (level : BitVec 5) (full : Bool) : Inv (s.update level full) :=
  { h with
    sawCompleted := id
    sawFlushed := id }

/-- A board that has flushed takes no command. -/
theorem Inv.writeq_suffix (h : Inv s) (c : BitVec 64) :
    (s.writeq c).outstanding <:+ s.written ++ [c] := by
  show (if s.boardFlushed then s.outstanding else s.outstanding ++ [c]) <:+ _
  split
  · next hf =>
    rw [h.flushed hf]
    exact List.nil_suffix
  · exact List.suffix_append_self_iff.mpr h.suffix

theorem Inv.send (h : Inv s) (hsending : s.phase = .sending) : Inv s.send := by
  obtain ⟨hsg, hnone, hrunning⟩ := h.pending (Or.inl hsending)
  obtain ⟨e, rest, hrest⟩ := List.exists_cons_of_ne_nil hsg
  have hend : isEnd (markSlots s.slotsFree (dmaCmd rest.isEmpty e)) = rest.isEmpty := isEnd_dmaCmd
  have hsuffix := h.writeq_suffix (markSlots s.slotsFree (dmaCmd rest.isEmpty e))
  have hflushed (hf : s.boardFlushed = true) :
      (s.writeq (markSlots s.slotsFree (dmaCmd rest.isEmpty e))).outstanding = [] := by
    show (if s.boardFlushed then s.outstanding else _) = []
    rw [if_pos hf, h.flushed hf]
  have hcompleted : s.boardCompleted = true → ∀ l : List (BitVec 64), l = [] := fun hc => by
    rw [hrunning] at hc
    cases hc
  rw [Driver.send, hrest]
  cases rest with
  | nil =>
    -- the last entry
    exact
      { pending := fun hp => by simp at hp
        ended := fun _ => Terminated.snoc hnone hend
        returned := fun hi => by cases hi
        suffix := hsuffix
        completed := fun hc => hcompleted hc _
        flushed := hflushed
        sawCompleted := h.sawCompleted
        sawFlushed := h.sawFlushed }
  | cons e' rest =>
    exact
      { pending := fun _ =>
          ⟨List.cons_ne_nil e' rest, List.forall_mem_append.mpr ⟨hnone, fun c hc => by
            rw [List.mem_singleton.mp hc]
            exact hend⟩, hrunning⟩
        ended := fun hw => by cases hw
        returned := fun hi => by cases hi
        suffix := hsuffix
        completed := fun hc => hcompleted hc _
        flushed := hflushed
        sawCompleted := h.sawCompleted
        sawFlushed := h.sawFlushed }

theorem Inv.stall (h : Inv s) (hsending : s.phase = .sending) (level : BitVec 5) (full : Bool) :
    Inv { s.update level full with phase := .stalled } :=
  { h.update level full with
    pending := fun _ => h.pending (Or.inl hsending)
    ended := fun hw => by cases hw
    returned := fun hi => by cases hi }

theorem Inv.wake (h : Inv s) (hstalled : s.phase = .stalled) : Inv (s.wake d) := by
  obtain ⟨hsg, hnone, hrunning⟩ := h.pending (Or.inr hstalled)
  rw [Driver.wake]
  split
  · next hflush =>
    -- the list is ended for a board that has thrown it away
    have hflushed := h.sawFlushed hflush.2
    have hempty : (s.writeq endCmd).outstanding = [] := by
      show (if s.boardFlushed then s.outstanding else _) = []
      rw [if_pos hflushed, h.flushed hflushed]
    exact
      { pending := fun hp => by simp at hp
        ended := fun _ => Terminated.snoc hnone isEnd_endCmd
        returned := fun hi => by cases hi
        suffix := h.writeq_suffix endCmd
        completed := fun _ => hempty
        flushed := fun _ => hempty
        sawCompleted := h.sawCompleted
        sawFlushed := h.sawFlushed }
  · exact
      { h with
        pending := fun _ => ⟨hsg, hnone, hrunning⟩
        ended := fun hw => by cases hw
        returned := fun hi => by cases hi }

/-- A call returns. -/
theorem Inv.idle (h : Inv s) (hlist : s.written = [] ∨ Terminated s.written)
    (hpages : s.outstanding = []) : Inv { s with phase := .idle } :=
  { h with
    pending := fun hp => by simp at hp
    ended := fun hw => by cases hw
    returned := fun _ => ⟨hlist, hpages⟩ }

theorem Inv.finish (h : Inv s) (hwaiting : s.phase = .waiting) (hfinished : s.finished d = true) :
    Inv { s with phase := .idle } := by
  refine h.idle (Or.inr (h.ended hwaiting)) ?_
  rw [Driver.finished, Bool.or_eq_true, Bool.and_eq_true] at hfinished
  rcases hfinished with hcompleted | ⟨-, hflushed⟩
  · exact h.completed (h.sawCompleted hcompleted)
  · exact h.flushed (h.sawFlushed hflushed)

theorem Inv.interrupt (h : Inv s) (hphase : s.phase = .stalled ∨ s.phase = .waiting)
    (hcareful : Careful s .interrupt) : Inv { s with phase := .idle } := by
  rcases hphase with hstalled | hwaiting
  · have hnil := hcareful.1 hstalled
    have hsuffix := h.suffix
    rw [hnil, List.suffix_nil] at hsuffix
    exact h.idle (Or.inl hnil) hsuffix
  · exact h.idle (Or.inr (h.ended hwaiting)) (hcareful.2 hwaiting)

theorem Inv.perform (h : Inv s) (hne : s.outstanding ≠ []) : Inv s.perform := by
  obtain ⟨c, r, hr⟩ := List.exists_cons_of_ne_nil hne
  have hsuffix := h.suffix
  rw [hr] at hsuffix
  have hmem : c ∈ s.written := hsuffix.subset List.mem_cons_self
  have hbefore : s.boardCompleted = false := by
    rw [← Bool.not_eq_true]
    exact fun hc => hne (h.completed hc)
  have hlast : isEnd c = true → r = [] := by
    intro hc
    cases hphase : s.phase with
    | idle => exact absurd (h.returned hphase).2 hne
    | sending =>
      rw [(h.pending (Or.inl hphase)).2.1 c hmem] at hc
      cases hc
    | stalled =>
      rw [(h.pending (Or.inr hphase)).2.1 c hmem] at hc
      cases hc
    | waiting => exact (h.ended hphase).suffix_eq_nil hsuffix hc
  rw [Driver.perform, hr, hbefore]
  exact
    { h with
      pending := fun hp => by
        obtain ⟨hsg, hnone, -⟩ := h.pending hp
        exact ⟨hsg, hnone, hnone c hmem⟩
      returned := fun hi => absurd (h.returned hi).2 hne
      suffix := (List.suffix_cons c r).trans hsuffix
      completed := hlast
      flushed := fun hf => absurd (h.flushed hf) hne
      sawCompleted := fun hc => by
        rw [h.sawCompleted hc] at hbefore
        cases hbefore }

theorem Inv.flush (h : Inv s) : Inv s.flush :=
  { h with
    returned := fun hi => ⟨(h.returned hi).1, rfl⟩
    suffix := List.nil_suffix
    completed := fun _ => rfl
    flushed := fun _ => rfl
    sawFlushed := fun _ => rfl }

/-- **The step lemma.** -/
theorem Inv.next (h : Inv s) {a : Action} (henabled : Enabled d s a) (hcareful : Careful s a) :
    Inv (s.next d a) := by
  cases a with
  | call debugDma m =>
    rw [Driver.next]
    split
    · next hbegins => exact h.begin hbegins.1 m
    · exact h
  | update level full => exact h.update level full
  | send => exact h.send henabled.1
  | stall level full => exact h.stall henabled.1 level full
  | wake => exact h.wake henabled.1
  | finish => exact h.finish henabled.1 henabled.2
  | interrupt => exact h.interrupt (henabled.imp And.left And.left) hcareful
  | perform => exact h.perform henabled
  | flush => exact h.flush

theorem Inv.sound (h : Inv s) : s.Sound where
  list hidle := (h.returned hidle).1
  pages c hc := by
    refine ⟨fun hidle => ?_, h.suffix.subset hc⟩
    rw [(h.returned hidle).2] at hc
    cases hc

/-- An interrupt that comes too late leaves a list without an end, or commands of pages that are
unmapped. -/
theorem Inv.not_sound (h : Inv s) {a : Action} (henabled : Enabled d s a)
    (hcareless : ¬ Careful s a) : ¬ (s.next d a).Sound := by
  cases a with
  | interrupt =>
    intro hsound
    refine hcareless ⟨fun hstalled => ?_, fun _ => ?_⟩
    · rcases hsound.list rfl with hnil | hterminated
      · exact hnil
      · exact absurd hterminated (not_terminated (h.pending (Or.inr hstalled)).2.1)
    · exact List.eq_nil_iff_forall_not_mem.mpr fun c hc => (hsound.pages c hc).1 rfl
  | _ => exact absurd trivial hcareless

end Steps

/-! ### The runs -/

/-- **Every run.** The lists end and the pages stay exactly if no call is interrupted too late. -/
theorem sound_iff (d : Direction) (l : List Action) :
    Along (Enabled d) (Driver.next d) Driver.Sound {} l ↔
      StepsMeet (Enabled d) (Driver.next d) Careful {} l :=
  along_iff (I := Inv) (fun _ h => h.sound) (fun _ _ h => h.next) (fun _ _ h => h.not_sound)
    inv_start l

/-- A read that is interrupted when it has filled the slots. -/
def interruptedRead (m : Mapped) : List Action :=
  (.call false m :: List.replicate 16 .send ++ [.stall 16 true]) ++ [.interrupt]

/-- Turns of the loop, as long as there are slots. -/
theorem runs_send {d : Direction} {n : ℕ} {s : Driver} (hsending : s.phase = .sending)
    (hsg : n < s.sg.length) (hslots : n ≤ s.slotsFree.toNat) :
    Runs (Enabled d) (Driver.next d) s (List.replicate n .send) ∧
      ((List.replicate n .send).foldl (Driver.next d) s).phase = .sending ∧
      ((List.replicate n .send).foldl (Driver.next d) s).slotsFree.toNat = s.slotsFree.toNat - n ∧
      ((List.replicate n .send).foldl (Driver.next d) s).written.length = s.written.length + n := by
  induction n generalizing s with
  | zero => exact ⟨trivial, hsending, rfl, rfl⟩
  | succ n ih =>
    obtain ⟨e, e', rest, hlist⟩ : ∃ e e' rest, s.sg = e :: e' :: rest := by
      cases hs : s.sg with
      | nil =>
        rw [hs] at hsg
        cases hsg
      | cons e rest =>
        cases rest with
        | nil =>
          rw [hs, List.length_singleton] at hsg
          omega
        | cons e' rest => exact ⟨e, e', rest, rfl⟩
    have hsend : s.send = { s.writeq (markSlots s.slotsFree (dmaCmd false e)) with
        sg := e' :: rest
        slotsFree := s.slotsFree - 1
        phase := .sending } := by
      rw [Driver.send, hlist]
      rfl
    have hfree : (s.slotsFree - 1).toNat = s.slotsFree.toNat - 1 := by
      have hlt := s.slotsFree.isLt
      rw [BitVec.toNat_sub, show (1 : BitVec 32).toNat = 1 from rfl]
      omega
    have hslot : s.slotsFree ≠ 0 := by
      rintro hzero
      rw [hzero] at hslots
      cases hslots
    have hlonger : n < (e' :: rest).length := by
      rw [hlist, List.length_cons] at hsg
      omega
    obtain ⟨hruns, hphase, hleft, hwritten⟩ := ih (s := s.send) (by rw [hsend])
      (by rw [hsend]; exact hlonger) (by rw [hsend]; dsimp only; omega)
    refine ⟨⟨⟨hsending, hslot⟩, hruns⟩, hphase, hleft.trans ?_, hwritten.trans ?_⟩
    · rw [hsend]
      dsimp only
      omega
    · rw [hsend]
      show (s.written ++ [_]).length + n = _
      rw [List.length_append, List.length_singleton]
      omega

/-- A list that is longer than the slots can be cut off. -/
theorem not_along_interruptedRead {m : Mapped} (hm : 16 < m.visited.length) :
    ¬ Along (Enabled .read) (Driver.next .read) Driver.Sound {} (interruptedRead m) := by
  intro h
  have hmeets := (along_iff (I := Inv) (fun _ h => h.sound) (fun _ _ h => h.next)
    (fun _ _ h => h.not_sound) inv_start _).mp h
  obtain ⟨hruns, hphase, hleft, hwritten⟩ := runs_send (d := .read) (n := 16)
    (s := Driver.begin {} m) rfl hm (show 16 ≤ (Driver.freeSlots {}).toNat by decide)
  have hbegin : Driver.next .read {} (.call false m) = Driver.begin {} m := by
    rw [Driver.next, if_pos ⟨rfl, rfl⟩]
  have hfull : (Driver.begin {} m).slotsFree = 16 := by
    show Driver.freeSlots {} = 16
    decide
  rw [hfull] at hleft
  have hstall := BitVec.eq_of_toNat_eq (y := 0) hleft
  have hall : Runs (Enabled .read) (Driver.next .read) {} (interruptedRead m) := by
    rw [interruptedRead, List.cons_append, List.cons_append]
    refine ⟨trivial, ?_⟩
    rw [hbegin, runs_append, runs_append]
    refine ⟨⟨hruns, ⟨hphase, hstall⟩, trivial⟩, Or.inl ⟨?_, ?_⟩, trivial⟩
    · rw [List.foldl_append]
      rfl
    · rw [List.foldl_append]
      rfl
  have hcareful := hmeets.last hall
  rw [List.cons_append, List.foldl_cons, hbegin, List.foldl_append] at hcareful
  have hnil := congrArg List.length (hcareful.1 rfl)
  have hlen := hwritten.symm.trans hnil
  cases hlen

/-- Seventeen pages, which are one more than the slots. -/
def seventeenPages : Mapped where
  chained := true
  entries := (List.range 17).map fun n => ⟨BitVec.ofNat 64 (4096 * n), 4096⟩
  numDmaXfers := 17
  pos := by decide
  le := by decide

theorem sound_interruptedRead :
    ¬ Along (Enabled .read) (Driver.next .read) Driver.Sound {} (interruptedRead seventeenPages) :=
  not_along_interruptedRead (by decide)

/-! ### A list that was written -/

section Written

variable {d : Direction} {s : Driver} {z : Bool}

/-- The commands that are written, and those to come, are for the entries of the list. -/
structure Follows (z : Bool) (s : Driver) : Prop where
  sending : s.phase = .sending ∨ s.phase = .stalled → ∃ m, s.mapped = some m ∧
    s.written.map (described z) ++ s.sg.map (Segment.field z) = m.visited.map (Segment.field z)
  sent : s.phase = .waiting → s.done = false → ∃ m, s.mapped = some m ∧
    s.written.map (described z) = m.visited.map (Segment.field z)

theorem Follows.send (h : Follows z s) (hsending : s.phase = .sending) : Follows z s.send := by
  obtain ⟨m, hm, hlist⟩ := h.sending (Or.inl hsending)
  rw [Driver.send]
  split
  · exact h
  · next e rest hsg =>
    rw [hsg, List.map_cons, List.append_cons] at hlist
    have hwritten :
        (s.written ++ [markSlots s.slotsFree (dmaCmd rest.isEmpty e)]).map (described z) =
          s.written.map (described z) ++ [e.field z] := by
      rw [List.map_append, List.map_singleton, described_dmaCmd]
    rw [← hwritten] at hlist
    refine ⟨fun _ => ⟨m, hm, hlist⟩, fun hw _ => ⟨m, hm, ?_⟩⟩
    have hrest : rest = [] := by
      cases rest with
      | nil => rfl
      | cons e' rest => cases hw
    rw [hrest, List.map_nil, List.append_nil] at hlist
    rw [hrest]
    exact hlist

/-- The call is over. -/
theorem follows_idle : Follows z { s with phase := .idle } where
  sending hp := by simp at hp
  sent hw := by cases hw

theorem Follows.wake (h : Follows z s) (hstalled : s.phase = .stalled) : Follows z (s.wake d) := by
  rw [Driver.wake]
  split
  · exact ⟨fun hp => by simp at hp, fun _ hdone => by cases hdone⟩
  · exact ⟨fun _ => h.sending (Or.inr hstalled), fun hw => by cases hw⟩

theorem Follows.next (h : Follows z s) {a : Action} (henabled : Enabled d s a) :
    Follows z (s.next d a) := by
  cases a with
  | call debugDma m =>
    rw [Driver.next]
    split
    · exact ⟨fun _ => ⟨m, rfl, rfl⟩, fun hw => by cases hw⟩
    · exact h
  | update level full => exact ⟨h.sending, h.sent⟩
  | send => exact h.send henabled.1
  | stall level full => exact ⟨fun _ => h.sending (Or.inl henabled.1), fun hw => by cases hw⟩
  | wake => exact h.wake henabled.1
  | finish => exact follows_idle
  | interrupt => exact follows_idle
  | perform => exact ⟨h.sending, h.sent⟩
  | flush => exact ⟨h.sending, h.sent⟩

theorem follows_of_reachable (h : (driver d).Reachable s) : Follows z s := by
  refine h.invariant ?_ ?_
  · rintro s rfl
    exact ⟨fun hp => by simp at hp, fun hw => by cases hw⟩
  · rintro s t hs ⟨a, henabled, rfl⟩
    exact hs.next henabled

end Written

/-- **The commands** that a call has written to the end of its list cover the segments exactly if
these fit the fields, and what else the loop went over is void. -/
theorem commands_cover {d : Direction} {s : Driver} {m : Mapped} (z : Bool)
    (h : (driver d).Reachable s) (hwaiting : s.phase = .waiting) (hdone : s.done = false)
    (hm : s.mapped = some m) : Covers z m s.written ↔ m.Fits z := by
  obtain ⟨m', hm', hlist⟩ := (follows_of_reachable h).sent hwaiting hdone
  obtain rfl : m' = m := Option.some.inj (hm'.symm.trans hm)
  exact covers_iff hlist

/-- A list of one segment. -/
def onePage : Mapped where
  chained := true
  entries := [⟨0x100000, 4096⟩]
  numDmaXfers := 1
  pos := by decide
  le := by decide

/-- A read that has written its list. -/
def sentRead (m : Mapped) : Driver :=
  (.call false m :: List.replicate m.visited.length .send).foldl (Driver.next .read) {}

theorem reachable_runs {d : Direction} {l : List Action}
    (h : Runs (Enabled d) (Driver.next d) {} l) :
    (driver d).Reachable (l.foldl (Driver.next d) {}) :=
  TransitionSystem.Reachable.runs (M := driver d) (E := Enabled d) (fun _ a ha => ⟨a, ha, rfl⟩)
    (.init rfl) h

theorem commands_cover_onePage : Covers true onePage (sentRead onePage).written :=
  (commands_cover true (d := .read) (reachable_runs (by decide)) rfl rfl rfl).mpr
    ⟨by decide, by decide⟩

/-- Five pages that are mapped as one segment. -/
def fivePages : Mapped where
  chained := true
  entries := ⟨0x100000, 20480⟩ :: List.replicate 4 ⟨0, 0⟩
  numDmaXfers := 1
  pos := by decide
  le := by decide

/-- The one command describes a page of the segment. -/
theorem covers_fivePages :
    (driver .read).Reachable (sentRead fivePages) ∧ (sentRead fivePages).phase = .waiting ∧
      ∀ z, ¬ Covers z fivePages (sentRead fivePages).written :=
  ⟨reachable_runs (by decide), rfl, by decide⟩

end BlueNocPcie

end LeapPlatforms
