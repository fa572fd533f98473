import LeapPlatforms.Foundation.TransitionSystem
import LeapPlatforms.PcieCsr.RxPayload

/-!
# The FIFO behind the receiver

The receiver writes the FIFO one clock after it has seen that the FIFO is not almost full. The words
that come out are the payload of the completions, in pairs, and the end of each completion is shown
with its length.

## Main definitions

* `RxFlow`, `RxFlow.next`, `rxFlows` — the receiver and its FIFO
* `pairs` — the DWords of a completion as words
* `RxFlow.Exact`

## Main results

* `RxSide.Receiving.left_next` — without gaps the receiver comes to the end
* `rx_exact`
-/

namespace LeapPlatforms

namespace PcieCsr

/-! ### Pairs of DWords -/

/-- DWords in pairs, the first one in the low half. -/
def pairs : List (BitVec 32) → List (BitVec 64)
  | d :: e :: l => (e ++ d) :: pairs l
  | _ => []

theorem flatMap_pairs : ∀ {l : List (BitVec 32)}, l.length % 2 = 0 → (pairs l).flatMap wordDws = l
  | [], _ => rfl
  | [_], h => absurd h Nat.one_ne_zero
  | d :: e :: l, h => by
    have hl : l.length % 2 = 0 := by
      rw [List.length_cons, List.length_cons] at h
      omega
    rw [pairs, List.flatMap_cons, wordDws_append, flatMap_pairs hl]
    rfl

theorem wordDws_injective : Function.Injective wordDws := by
  intro v w h
  obtain ⟨hlo, hhi, -⟩ : loDw v = loDw w ∧ hiDw v = hiDw w ∧ True := by
    simpa [wordDws] using h
  have happend : ∀ x : BitVec 64, hiDw x ++ loDw x = x := by
    intro x
    rw [hiDw, loDw]
    exact BitVec.extractLsb'_append_extractLsb'_eq_extractLsb' (by decide) |>.trans
      BitVec.extractLsb'_eq_self
  rw [← happend v, ← happend w, hlo, hhi]

/-- Words whose DWords come first are the first words. -/
theorem exists_append_of_flatMap {ws us : List (BitVec 64)} {rest : List (BitVec 32)}
    (h : ws.flatMap wordDws ++ rest = us.flatMap wordDws) :
    ∃ vs, ws ++ vs = us ∧ vs.flatMap wordDws = rest := by
  induction ws generalizing us with
  | nil => exact ⟨us, rfl, h.symm⟩
  | cons w ws ih =>
    cases us with
    | nil => simp [wordDws] at h
    | cons u us =>
      rw [List.flatMap_cons, List.flatMap_cons, List.append_assoc] at h
      obtain ⟨hw, hrest⟩ := List.append_inj h rfl
      obtain ⟨vs, hvs, hflat⟩ := ih hrest
      exact ⟨vs, by rw [List.cons_append, hvs, wordDws_injective hw], hflat⟩

/-! ### The receiver and its FIFO -/

/-- The receiver with `h2f_data` behind it, the completions that came to the interface, the words
that were read from the FIFO and the lengths that were shown with `cpld_recv_finish`. -/
structure RxFlow where
  side : RxSide := {}
  fifo : List (BitVec 64) := []
  completions : List Completion := []
  delivered : List (BitVec 64) := []
  finishes : List (BitVec 10) := []

namespace RxFlow

variable (s : RxFlow)

/-- A clock; a write to a full FIFO is lost. -/
def next (capacity : ℕ) (c : RxClock) (rdEn : Bool) : RxFlow where
  side := s.side.next c
  fifo := (if rdEn then s.fifo.tail else s.fifo) ++
    if s.side.rx.h2fFifoWen ∧ s.fifo.length < capacity then [s.side.rx.h2fFifoData] else []
  completions := s.completions ++ s.side.arriving c
  delivered := s.delivered ++ if rdEn then s.fifo.take 1 else []
  finishes := s.finishes ++ s.side.shownLen

/-- What is said of the FIFO and of the ends of completions. -/
structure Exact (capacity : ℕ) : Prop where
  /-- The FIFO is not written when it is full. -/
  room : s.side.rx.h2fFifoWen = true → s.fifo.length < capacity
  /-- What comes out is the payload in pairs; what is missing is in the receiver or before it. -/
  words : ∃ later,
    s.delivered ++ s.fifo ++ later = s.completions.flatMap (fun p => pairs p.payload) ∧
      later.flatMap wordDws = s.side.rx.pending ++ s.side.rx.held ++ s.side.sending.coming
  /-- The lengths that were shown are those of the completions; what is missing is to be shown. -/
  lengths : s.finishes ++ s.side.announced = s.completions.map fun p => p.header.extractLsb' 32 10

end RxFlow

/-- The runs of the receiver. When the FIFO is not almost full it takes two more words. -/
def rxFlows (capacity : ℕ) : TransitionSystem RxFlow where
  init s := s = {}
  step s t := ∃ c rdEn, (c.h2fFifoFull = false → s.fifo.length + 2 ≤ capacity) ∧
    t = s.next capacity c rdEn

namespace RxSide

variable {s : RxSide} {c : RxClock}

theorem rxIn_h2fFifoFull : (s.rxIn c).h2fFifoFull = c.h2fFifoFull := by
  rw [rxIn]
  split <;> rfl

/-- The FIFO is written in the clock after one in which it was not almost full. -/
theorem Receiving.full_of_wen (h : s.Receiving) (hwen : (s.next c).rx.h2fFifoWen = true) :
    c.h2fFifoFull = false := by
  have hload := h.load (c := c)
  have hstate := hload.wen
  have hrx : (s.next c).rx = (s.load c).rx.next ((s.load c).rxIn c) := rfl
  have hfull := rxIn_h2fFifoFull (s := s.load c) (c := c)
  rw [hrx, RxWrapper.next] at hwen
  cases hst : (s.load c).rx.pcieRxState with
  | rst => grind [RxWrapper.nextRst]
  | cpldQwn => grind [RxWrapper.nextCpldQwn, RxWrapper.writePair, RxWrapper.keepSecond]
  | cpldQwnw => grind [RxWrapper.nextCpldQwnw, RxWrapper.writePair, RxWrapper.keepSecond]
  | _ => grind

end RxSide

namespace RxFlow

variable {s : RxFlow} {capacity : ℕ}

/-- What holds in every clock. -/
structure Kept (s : RxFlow) (capacity : ℕ) : Prop where
  receiving : s.side.Receiving
  room : s.side.rx.h2fFifoWen = true → s.fifo.length < capacity
  written : s.delivered ++ s.fifo = s.side.written
  sent : s.side.sent = s.completions.flatMap Completion.payload
  lengths : s.finishes ++ s.side.announced = s.completions.map fun p => p.header.extractLsb' 32 10

theorem kept_start : Kept {} capacity :=
  ⟨RxSide.receiving_start, fun h => absurd h (by decide), rfl, rfl, rfl⟩

theorem Kept.next (h : s.Kept capacity) {c : RxClock} {rdEn : Bool}
    (hfull : c.h2fFifoFull = false → s.fifo.length + 2 ≤ capacity) :
    (s.next capacity c rdEn).Kept capacity where
  receiving := h.receiving.next
  room hwen := by
    have hroom := hfull (h.receiving.full_of_wen hwen)
    have hone : (if s.side.rx.h2fFifoWen ∧ s.fifo.length < capacity
        then [s.side.rx.h2fFifoData] else []).length ≤ 1 := by
      split <;> simp
    have hkept : (if rdEn then s.fifo.tail else s.fifo).length ≤ s.fifo.length := by
      split <;> simp
    rw [RxFlow.next, List.length_append]
    omega
  written := by
    have hword : (if s.side.rx.h2fFifoWen ∧ s.fifo.length < capacity
        then [s.side.rx.h2fFifoData] else []) =
        if s.side.rx.h2fFifoWen then [s.side.rx.h2fFifoData] else [] := by
      cases hwen : s.side.rx.h2fFifoWen with
      | false => simp
      | true => simp [h.room hwen]
    have hread : (if rdEn then s.fifo.take 1 else []) ++ (if rdEn then s.fifo.tail else s.fifo) =
        s.fifo := by
      cases rdEn with
      | false => rfl
      | true => simp [← List.drop_one]
    have hclock : (s.next capacity c rdEn).side.written =
        s.side.written ++ if s.side.rx.h2fFifoWen then [s.side.rx.h2fFifoData] else [] := rfl
    rw [hclock, ← h.written, RxFlow.next]
    dsimp only
    rw [hword, List.append_assoc, List.append_assoc,
      ← List.append_assoc (if rdEn then s.fifo.take 1 else []), hread]
  sent := by
    change s.side.sent ++ s.side.loaded c = _
    rw [h.sent, RxSide.loaded_eq, RxFlow.next, List.flatMap_append]
  lengths := by
    change s.finishes ++ s.side.shownLen ++ (s.side.next c).announced = _
    rw [List.append_assoc, h.receiving.announced_next, ← List.append_assoc, h.lengths,
      RxSide.loadedLen, RxFlow.next, List.map_append]

theorem Kept.sent_eq (h : s.Kept capacity) :
    s.side.sent = (s.completions.flatMap fun p => pairs p.payload).flatMap wordDws := by
  rw [h.sent, List.flatMap_assoc]
  congr 1
  funext p
  exact (flatMap_pairs p.even).symm

theorem Kept.exact (h : s.Kept capacity) : s.Exact capacity where
  room := h.room
  words := by
    refine exists_append_of_flatMap ?_
    rw [h.written, ← h.sent_eq]
    exact h.receiving.order
  lengths := h.lengths

end RxFlow

/-! ### To the end of a TLP -/

/-- The clocks that the TLP on the interface takes, when its words are not held up. -/
def Sending.left : Sending → ℕ
  | .idle => 0
  | .header _ payload => 3 + payload.length / 2
  | .first payload => 1 + payload.length / 2
  | .body payload => (payload.length + 1) / 2
  | .other _ rest => 1 + rest.length
  | .otherBody rest => rest.length

/-- The clocks that the receiver takes beyond these. -/
def RxWrapper.left (s : RxWrapper) : ℕ :=
  match s.pcieRxState with
  | .rst => if s.h2fFifoWen || s.cpldRecvFinish then 1 else 0
  | .cpldQw1 | .cpldQwn => 1
  | .cpldQwnw => 2
  | .mrd32Qw1 | .mwr32Qw1 => 0

namespace RxSide

variable {s : RxSide} {c : RxClock}

def left (s : RxSide) : ℕ := s.rx.left + s.sending.left

/-- A clock that brings the receiver on: no gap, no new TLP, and the FIFO is not almost full. -/
structure Free (c : RxClock) : Prop where
  gap : c.gap = false
  h2fFifoFull : c.h2fFifoFull = false
  tlp : c.tlp = none

theorem Receiving.left_rst (h : s.Receiving) (hc : Free c) (hstate : s.rx.pcieRxState = .rst) :
    (s.clock c).left ≤ s.left - 1 := by
  have hmeets := h.meets
  have hwf := h.wf
  have hgap := hc.gap
  have hrx : (s.clock c).rx = s.rx.nextRst (s.rxIn c) := by
    show s.rx.next _ = _
    rw [RxWrapper.next, hstate]
  have hnext := sending_taken h hgap (by rw [hstate]; decide)
  have hquiet : (s.clock c).rx = { s.rx with
      csrRdStart := false, csrWrStart := false, cpldRecvFinish := false, h2fFifoWen := false } →
      (s.clock c).rx.left = 0 := by
    intro hrx'
    rw [RxWrapper.left, hrx', hstate]
    rfl
  rw [RxWrapper.Meets, hstate] at hmeets
  rw [left, left, hnext]
  cases hs : s.sending with
  | idle =>
    rw [hquiet]
    · exact Nat.zero_le _
    · rw [hrx, RxWrapper.nextRst]
      simp [rxIn, hs, Sending.beat]
  | first p => exact absurd hs (hmeets.1 p)
  | body p => exact absurd hs (hmeets.2 p)
  | header hd p =>
    rw [hs] at hwf
    have hone : (s.clock c).rx.left = 1 := by
      rw [RxWrapper.left, rx_header hstate hs hgap hwf.1]
    rw [hone, Sending.rest, Sending.left, Sending.left]
    omega
  | other hd rest =>
    rw [hs] at hwf
    obtain ⟨req, state, hrx', hst⟩ := rx_other hstate hs hgap hwf.1
    have hzero : (s.clock c).rx.left = 0 := by
      rw [RxWrapper.left, hrx']
      rcases hst with rfl | rfl | rfl <;> rfl
    rw [hzero, Sending.rest, Sending.left, Sending.left]
    omega
  | otherBody rest =>
    rw [hs] at hwf
    have hpos : 0 < rest.length := List.length_pos_iff.mpr hwf
    rw [hquiet]
    · rw [Sending.rest, Sending.left]
      split
      · exact Nat.zero_le _
      · rw [Sending.left, List.length_tail]
        omega
    · rw [hrx, RxWrapper.nextRst]
      simp [rxIn, hs, Sending.beat]

theorem Receiving.left_access (h : s.Receiving) (hc : Free c)
    (hstate : s.rx.pcieRxState = .mrd32Qw1 ∨ s.rx.pcieRxState = .mwr32Qw1) :
    (s.clock c).left ≤ s.left - 1 := by
  have hwf := h.wf
  have hgap := hc.gap
  have hrx : (s.clock c).rx = s.rx.next (s.rxIn c) := rfl
  have hfinish := h.finish_eq (by rcases hstate with hst | hst <;> rw [hst] <;> decide)
  have hwen : s.rx.h2fFifoWen = false := by
    by_contra hwen
    rcases h.wen (by simpa using hwen) with h' | h' <;> rcases hstate with hst | hst <;>
      rw [hst] at h' <;> cases h'
  obtain ⟨rest, hs⟩ : ∃ rest, s.sending = .otherBody rest := by
    have hmeets := h.meets
    rw [RxWrapper.Meets] at hmeets
    rcases hstate with hst | hst <;> rw [hst] at hmeets <;> exact hmeets
  have hnext := sending_taken h hgap (by rcases hstate with hst | hst <;> rw [hst] <;> decide)
  have hzero : (s.clock c).rx.left = 0 := by
    rw [hrx, RxWrapper.next]
    rcases hstate with hst | hst <;> rw [hst] <;> simp only <;> split <;>
      simp [RxWrapper.left, hst, hwen, hfinish]
  rw [hs] at hwf
  have hpos : 0 < rest.length := List.length_pos_iff.mpr hwf
  rw [left, left, hzero, hnext, hs, Sending.rest, Sending.left]
  split
  · exact Nat.zero_le _
  · rw [Sending.left, List.length_tail]
    omega

/-- In a completion the machine is in one of its states afterwards, or in the clock of its last
word. -/
theorem left_le_one (hrx : (s.clock c).rx.pcieRxState = .rst ∨
    (s.clock c).rx.pcieRxState = .cpldQwn) : (s.clock c).rx.left ≤ 1 := by
  rw [RxWrapper.left]
  rcases hrx with h | h <;> rw [h]
  · simp only
    split <;> decide

theorem Receiving.left_first (h : s.Receiving) (hc : Free c)
    (hstate : s.rx.pcieRxState = .cpldQw1) : (s.clock c).left ≤ s.left - 1 := by
  have hwf := h.wf
  have hmeets := h.meets
  rw [RxWrapper.Meets, hstate] at hmeets
  obtain ⟨p, hs⟩ := hmeets
  rw [hs] at hwf
  have hnext := sending_taken h hc.gap (by rw [hstate]; decide)
  have hrx : (s.clock c).rx.pcieRxState = .cpldQwn := by
    change (s.rx.next (s.rxIn c)).pcieRxState = _
    rw [RxWrapper.next, hstate]
    simp [rxIn, hs, Sending.beat, hc.gap]
  have hone := left_le_one (.inr hrx)
  have heven := hwf.1
  have hpos := hwf.2
  rw [left, left, hnext, hs, Sending.rest, Sending.left, Sending.left, List.length_tail,
    RxWrapper.left.eq_def s.rx, hstate]
  simp only
  omega

theorem Receiving.left_body (h : s.Receiving) (hc : Free c) (hstate : s.rx.pcieRxState = .cpldQwn) :
    (s.clock c).left ≤ s.left - 1 := by
  have hmeets := h.meets
  have hwf := h.wf
  rw [RxWrapper.Meets, hstate] at hmeets
  obtain ⟨p, hs⟩ := hmeets
  rw [hs] at hwf
  have hodd : p.length % 2 = 1 := hwf
  have hnext := sending_taken h hc.gap (by rw [hstate]; decide)
  have hfull : (s.rxIn c).h2fFifoFull = false := rxIn_h2fFifoFull.trans hc.h2fFifoFull
  have hgoes := RxWrapper.goesOn_next (i := s.rxIn c) (s := s.rx) (.inr (.inl hstate))
  have hrx : (s.clock c).rx.pcieRxState = .rst ∨ (s.clock c).rx.pcieRxState = .cpldQwn := by
    change (s.rx.next (s.rxIn c)).pcieRxState = _ ∨ (s.rx.next (s.rxIn c)).pcieRxState = _
    rw [RxWrapper.next, hstate]
    grind [RxWrapper.nextCpldQwn, RxWrapper.writePair, RxWrapper.keepSecond]
  have hone := left_le_one hrx
  have hleft : (s.clock c).sending.left ≤ (p.length + 1) / 2 - 1 := by
    rw [hnext, hs]
    rcases p with _ | ⟨d, _ | ⟨e, p⟩⟩
    · cases hodd
    · exact Nat.zero_le _
    · rw [Sending.rest, Sending.left, List.length_cons, List.length_cons]
      omega
  rw [left, left, hs, Sending.left.eq_def (.body p), RxWrapper.left.eq_def s.rx, hstate]
  simp only
  omega

theorem Receiving.left_aside (h : s.Receiving) (hc : Free c)
    (hstate : s.rx.pcieRxState = .cpldQwnw) : (s.clock c).left ≤ s.left - 1 := by
  have hready := h.ready
  rw [hstate] at hready
  have hnext : (s.clock c).sending = s.sending := by
    rw [RxSide.clock]
    simp [hready]
  have hfull : (s.rxIn c).h2fFifoFull = false := rxIn_h2fFifoFull.trans hc.h2fFifoFull
  have hrx : (s.clock c).rx.pcieRxState = .rst ∨ (s.clock c).rx.pcieRxState = .cpldQwn := by
    change (s.rx.next (s.rxIn c)).pcieRxState = _ ∨ (s.rx.next (s.rxIn c)).pcieRxState = _
    rw [RxWrapper.next, hstate]
    grind [RxWrapper.nextCpldQwnw]
  have hone := left_le_one hrx
  rw [left, left, hnext, RxWrapper.left.eq_def s.rx, hstate]
  simp only
  omega

/-- **Progress.** A clock without a gap, a new TLP or an almost full FIFO brings the receiver on. -/
theorem Receiving.left_next (h : s.Receiving) (hc : Free c) : (s.next c).left ≤ s.left - 1 := by
  rw [RxSide.next, load_of_none hc.tlp]
  cases hstate : s.rx.pcieRxState with
  | rst => exact h.left_rst hc hstate
  | mrd32Qw1 => exact h.left_access hc (.inl hstate)
  | mwr32Qw1 => exact h.left_access hc (.inr hstate)
  | cpldQw1 => exact h.left_first hc hstate
  | cpldQwn => exact h.left_body hc hstate
  | cpldQwnw => exact h.left_aside hc hstate

/-- Nothing is left: all is written and all ends were shown. -/
theorem Receiving.of_left (h : s.Receiving) (hleft : s.left = 0) :
    s.rx.pending ++ s.rx.held ++ s.sending.coming = [] ∧ s.announced = [] := by
  have hmeets := h.meets
  have hwf := h.wf
  rw [left, Nat.add_eq_zero_iff] at hleft
  obtain ⟨hrx, hsending⟩ := hleft
  have hidle : s.sending = .idle := by
    cases hs : s.sending with
    | idle => rfl
    | body p =>
      rw [hs] at hwf hsending
      have hodd : p.length % 2 = 1 := hwf
      rw [Sending.left] at hsending
      omega
    | otherBody rest =>
      rw [hs] at hwf hsending
      exact absurd (List.length_eq_zero_iff.mp hsending) hwf
    | _ =>
      rw [hs] at hsending
      simp [Sending.left] at hsending
  rw [RxWrapper.Meets, hidle] at hmeets
  rw [RxWrapper.left] at hrx
  cases hstate : s.rx.pcieRxState with
  | rst =>
    rw [hstate] at hrx
    obtain ⟨hwen, hfinish⟩ : s.rx.h2fFifoWen = false ∧ s.rx.cpldRecvFinish = false := by
      simpa using hrx
    rw [RxWrapper.pending, RxWrapper.held, announced, RxWrapper.openedLen, hstate, hwen, hfinish,
      hidle]
    exact ⟨rfl, rfl⟩
  | mrd32Qw1 => simp [hstate] at hmeets
  | mwr32Qw1 => simp [hstate] at hmeets
  | _ =>
    rw [hstate] at hrx
    cases hrx

/-- After as many such clocks as are left, nothing is left. -/
theorem Receiving.drained (h : s.Receiving) {cs : List RxClock} (hcs : ∀ c ∈ cs, Free c)
    (hleft : s.left ≤ cs.length) :
    (cs.foldl RxSide.next s).Receiving ∧ (cs.foldl RxSide.next s).left = 0 ∧
      (cs.foldl RxSide.next s).sent = s.sent := by
  induction cs generalizing s with
  | nil => exact ⟨h, Nat.le_zero.mp hleft, rfl⟩
  | cons c cs ih =>
    have hc := hcs c List.mem_cons_self
    have hstep := h.left_next hc
    rw [List.length_cons] at hleft
    obtain ⟨hreceiving, hzero, hsent⟩ :=
      ih (h.next (c := c)) (fun d hd => hcs d (List.mem_cons_of_mem c hd)) (by omega)
    refine ⟨hreceiving, hzero, hsent.trans ?_⟩
    rw [RxSide.next, load_of_none hc.tlp]
    rfl

end RxSide

/-! ### Runs -/

theorem kept_of_reachable {capacity : ℕ} {s : RxFlow} (hs : (rxFlows capacity).Reachable s) :
    s.Kept capacity := by
  refine TransitionSystem.Reachable.invariant (P := fun s => s.Kept capacity) ?_ ?_ hs
  · rintro s rfl
    exact RxFlow.kept_start
  · rintro s t h ⟨c, rdEn, hfull, rfl⟩
    exact h.next hfull

/-- In every run the words are the payload of the completions in pairs, the FIFO is not written when
it is full, and the end of each completion is shown for one clock, with its length. What is not
written yet is written when clocks without a gap come. -/
theorem rx_exact {capacity : ℕ} {s : RxFlow} (hs : (rxFlows capacity).Reachable s) :
    s.Exact capacity ∧
      ∀ cs : List RxClock, (∀ c ∈ cs, RxSide.Free c) → s.side.left ≤ cs.length →
        (cs.foldl RxSide.next s.side).written = s.completions.flatMap (fun p => pairs p.payload) ∧
          (cs.foldl RxSide.next s.side).announced = [] := by
  have hkept := kept_of_reachable hs
  refine ⟨hkept.exact, fun cs hcs hleft => ?_⟩
  obtain ⟨hreceiving, hzero, hsent⟩ := hkept.receiving.drained hcs hleft
  obtain ⟨hnone, hannounced⟩ := hreceiving.of_left hzero
  refine ⟨?_, hannounced⟩
  have horder := hreceiving.order
  rw [hnone, hsent, hkept.sent_eq] at horder
  obtain ⟨vs, hvs, hnil⟩ := exists_append_of_flatMap horder
  cases vs with
  | nil => rwa [List.append_nil] at hvs
  | cons v vs => simp [wordDws] at hnil

/-- A completion of four DWords. -/
def sampleCompletion : Completion where
  header := 0x4a00000400000000
  payload := [1, 2, 3, 4]
  fmtType := by decide
  even := rfl
  positive := by decide
  len := by decide

/-- A message, which the receiver does not support. -/
def sampleMessage : OtherTlp where
  header := 0x3000000000000000
  rest := [0, 0]
  fmtType := by decide
  long := List.cons_ne_nil _ _

/-- A clock in which the TLP comes, or without one. -/
def sampleClock (h2fFifoFull gap : Bool) (tlp : Option HostTlp) : RxClock :=
  ⟨gap, h2fFifoFull, 0, 0, tlp⟩

/-- The message and the completion; the FIFO is almost full when the last quadword comes. -/
def sampleClocks : List (RxClock × Bool) :=
  [(sampleClock false false (some (.other sampleMessage)), false),
    (sampleClock false false none, false),
    (sampleClock false false none, false),
    (sampleClock false false (some (.completion sampleCompletion)), false),
    (sampleClock false false none, false),
    (sampleClock false true none, false),
    (sampleClock false false none, false),
    (sampleClock true false none, false),
    (sampleClock true false none, true),
    (sampleClock false false none, false),
    (sampleClock false false none, false)]

theorem rx_exact_sample : ∃ s : RxFlow,
    (s.delivered, s.fifo, s.finishes) = ([0x200000001], [0x400000003], [4]) ∧ s.Exact 3 ∧
      ∀ cs : List RxClock, (∀ c ∈ cs, RxSide.Free c) → s.side.left ≤ cs.length →
        (cs.foldl RxSide.next s.side).written = s.completions.flatMap (fun p => pairs p.payload) ∧
          (cs.foldl RxSide.next s.side).announced = [] := by
  have hran : (sampleClocks.foldlM
      (TransitionSystem.attempt (fun s x => x.1.h2fFifoFull = false → s.fifo.length + 2 ≤ 3)
        fun s x => some (s.next 3 x.1 x.2)) ({} : RxFlow)).map
      (fun s => (s.delivered, s.fifo, s.finishes)) =
        some ([0x200000001], [0x400000003], [4]) := by
    decide
  obtain ⟨s, hs, hresult⟩ := Option.map_eq_some_iff.mp hran
  have hinit : (rxFlows 3).Reachable {} := .init rfl
  have hreachable : (rxFlows 3).Reachable s := by
    refine hinit.attempts ?_ hs
    intro s x t hfull hst
    exact ⟨x.1, x.2, hfull, (Option.some.inj hst).symm⟩
  exact ⟨s, hresult, rx_exact hreachable⟩

end PcieCsr

end LeapPlatforms
