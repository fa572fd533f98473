import LeapPlatforms.PcieCsr.WritePayload

/-!
# Memory writes finish

A TLP whose words are in the FIFO or set aside needs one clock of a ready endpoint for each
quadword. Together with the order of the payload this is what a memory write is for; both fail when
a stall meets an empty FIFO.

## Main definitions

* `Fed`, `WriteRun.clocksLeft`
* `emptyBehindStall`, `stallInBubble`, `lastSetAside` — clocks that are not careful

## Main results

* `Fed.step`, `Fed.finishes`
* `payload_in_order`, `word_lost`, `quadword_repeated`, `tlp_stuck`
-/

namespace LeapPlatforms

namespace PcieCsr

variable {s : WriteRun} {c : Clock}

/-! ### The machine finishes -/

/-- The words of the current TLP are there, and the FIFO shows one. -/
structure Fed (s : WriteRun) : Prop where
  even : s.tx.sm.pcieTxState = .mwr64Qw1 ∨ s.tx.sm.pcieTxState = .mwr64Qwn →
    s.tx.sm.mwr64LenRem.toNat % 2 = 0
  skid : s.tx.sm.f2hDataTmpValid = true → s.tx.sm.pcieTxState = .mwr64Qwn ∧
    s.tx.sm.f2hFifoRen = false ∧ s.fifo ≠ []
  ren : s.tx.sm.f2hFifoRen = true → s.tx.sm.pcieTxState = .mwr64Qwn
  words : s.wordsLeft ≤ s.waiting.length

/-- How many clocks a ready endpoint has to wait. -/
def WriteRun.clocksLeft (s : WriteRun) : ℕ :=
  match s.tx.sm.pcieTxState with
  | .rst => 0
  | .cpldQwLast | .mrd64ReqQwLast | .mwr64QwLast => 1
  | .cpldQw1 | .mrd64ReqQw1 => 2
  | .mwr64Qwn => quadwords s.tx.sm.mwr64LenRem + 1
  | .mwr64Qw1 => quadwords s.tx.sm.mwr64LenRem + 2

theorem Settled.fed (hs : Settled s) (hwords : s.wordsLeft ≤ s.waiting.length) : Fed s := by
  refine ⟨hs.even, fun hskid => ?_, hs.ren, hwords⟩
  obtain ⟨hstate, hren, -⟩ := hs.skid hskid
  refine ⟨hstate, hren, fun hfifo => ?_⟩
  have heven := hs.even (.inr hstate)
  -- with the FIFO empty, the word set aside is the last
  have hone : quadwords s.tx.sm.mwr64LenRem = 1 := by
    have hpos := quadwords_pos heven
    simp [WriteRun.wordsLeft, hstate, WriteRun.waiting, hskid, hfifo] at hwords
    omega
  exact hs.last hskid ((quadwords_eq_one heven).mp hone) hfifo

/-- The words of a TLP last until its end. -/
theorem Fed.step_qwn (h : Fed s) (hstate : s.tx.sm.pcieTxState = .mwr64Qwn)
    (hready : c.others.trnTdstRdyN = false) :
    Fed (s.next c) ∧ (s.next c).clocksLeft + 1 = s.clocksLeft := by
  have heven := h.even (.inr hstate)
  have hpos := quadwords_pos heven
  have hwords : quadwords s.tx.sm.mwr64LenRem ≤ s.waiting.length := by
    simpa [WriteRun.wordsLeft, hstate] using h.words
  have hfifo : s.fifo ≠ [] := by
    intro hfifo
    cases hskid : s.tx.sm.f2hDataTmpValid with
    | true => exact (h.skid hskid).2.2 hfifo
    | false =>
      rw [waiting_of hskid, hfifo] at hwords
      exact absurd (hpos.trans_le hwords) (by simp)
  have hin : (s.inputs c).trnTdstRdyN = false := hready
  have hhead : (s.inputs c).f2hFifoValid = true := by simp [WriteRun.inputs, hfifo]
  have hsm : (s.next c).tx.sm = s.tx.mainQwn (s.inputs c) := by
    show s.tx.mainSm (s.inputs c) = _
    rw [TxWrapper.mainSm, hstate]
  -- at most one word leaves what waits
  have hlen : quadwords s.tx.sm.mwr64LenRem ≤ (s.next c).fifo.length + 1 := by
    cases hskid : s.tx.sm.f2hDataTmpValid with
    | true =>
      rw [next_fifo (h.skid hskid).2.1, List.length_append]
      simp [WriteRun.waiting, hskid] at hwords
      omega
    | false =>
      rw [waiting_of hskid] at hwords
      show _ ≤ ((if s.tx.sm.f2hFifoRen then s.fifo.tail else s.fifo) ++ c.arrive).length + 1
      rw [List.length_append]
      cases s.tx.sm.f2hFifoRen with
      | true =>
        have htail : (if true = true then s.fifo.tail else s.fifo).length = s.fifo.length - 1 :=
          List.length_tail
        omega
      | false => exact hwords.trans (by simp; omega)
  have hwaiting : (s.next c).waiting = (s.next c).fifo := by
    refine waiting_of ?_
    rw [hsm, TxWrapper.mainQwn, if_pos hin, if_pos hhead]
  by_cases hlast : s.tx.sm.mwr64LenRem = 2#10
  · have hone : quadwords 2#10 = 1 := rfl
    refine ⟨⟨?_, ?_, ?_, ?_⟩, ?_⟩
    · simp [hsm, TxWrapper.mainQwn, hin, hhead, hlast]
    · simp [hsm, TxWrapper.mainQwn, hin, hhead]
    · simp [hsm, TxWrapper.mainQwn, hin, hhead, hlast]
    · simp [WriteRun.wordsLeft, hsm, TxWrapper.mainQwn, hin, hhead, hlast]
    · simp [WriteRun.clocksLeft, hsm, TxWrapper.mainQwn, hin, hhead, hlast, hstate, hone]
  · have hleft : quadwords (s.tx.sm.mwr64LenRem - 2#10) = quadwords s.tx.sm.mwr64LenRem - 1 :=
      quadwords_sub_two heven hlast
    refine ⟨⟨?_, ?_, ?_, ?_⟩, ?_⟩
    · rw [hsm, TxWrapper.mainQwn, if_pos hin, if_pos hhead]
      exact fun _ => even_sub_two heven
    · simp [hsm, TxWrapper.mainQwn, hin, hhead]
    · simp [hsm, TxWrapper.mainQwn, hin, hhead, hlast]
    · rw [hwaiting]
      simp [WriteRun.wordsLeft, hsm, TxWrapper.mainQwn, hin, hhead, hlast, hleft]
      exact hlen
    · simp [WriteRun.clocksLeft, hsm, TxWrapper.mainQwn, hin, hhead, hlast, hstate, hleft]
      omega

/-- The rest of a TLP needs one clock for each quadword. -/
theorem Fed.step (h : Fed s) (hrst : s.tx.sm.pcieTxState ≠ .rst)
    (hready : c.others.trnTdstRdyN = false) :
    Fed (s.next c) ∧ (s.next c).clocksLeft + 1 = s.clocksLeft := by
  by_cases hqwn : s.tx.sm.pcieTxState = .mwr64Qwn
  · exact h.step_qwn hqwn hready
  · have hin : (s.inputs c).trnTdstRdyN = false := hready
    have hren : s.tx.sm.f2hFifoRen = false := by
      by_contra hren
      exact hqwn (h.ren (by simpa using hren))
    have hskid : s.tx.sm.f2hDataTmpValid = false := by
      by_contra hskid
      exact hqwn (h.skid (by simpa using hskid)).1
    have hwords := h.words
    have heven := h.even
    have hsm : (s.next c).tx.sm = s.tx.mainSm (s.inputs c) := rfl
    have hfifo := next_fifo (c := c) hren
    rw [WriteRun.wordsLeft, waiting_of hskid] at hwords
    cases hstate : s.tx.sm.pcieTxState with
    | rst => exact absurd hstate hrst
    | mwr64Qwn => exact absurd hstate hqwn
    | mwr64Qw1 =>
      have hleft : quadwords s.tx.sm.mwr64LenRem ≤ s.fifo.length := by simpa [hstate] using hwords
      refine ⟨⟨?_, ?_, ?_, ?_⟩, ?_⟩
      · simpa [hsm, TxWrapper.mainSm, hstate, hin] using heven (.inl hstate)
      · simp [hsm, TxWrapper.mainSm, hstate, hin, hskid]
      · simp [hsm, TxWrapper.mainSm, hstate, hin]
      · simp [WriteRun.wordsLeft, WriteRun.waiting, hsm, TxWrapper.mainSm, hstate, hin, hfifo,
          hskid]
        omega
      · simp [WriteRun.clocksLeft, hsm, TxWrapper.mainSm, hstate, hin]
    | _ =>
      refine ⟨⟨?_, ?_, ?_, ?_⟩, ?_⟩
      · simp [hsm, TxWrapper.mainSm, hstate, hin]
      · simp [hsm, TxWrapper.mainSm, hstate, hin, hskid]
      · simp [hsm, TxWrapper.mainSm, hstate, hin, hren]
      · simp [WriteRun.wordsLeft, hsm, TxWrapper.mainSm, hstate, hin]
      · simp [WriteRun.clocksLeft, hsm, TxWrapper.mainSm, hstate, hin]

/-- A TLP whose words are there goes out once the endpoint stays ready. -/
theorem Fed.finishes (h : Fed s) (cs : ℕ → Clock)
    (hready : ∀ n, (cs n).others.trnTdstRdyN = false) :
    ∃ n, (s.after cs n).tx.sm.pcieTxState = .rst := by
  induction hk : s.clocksLeft generalizing s cs with
  | zero =>
    refine ⟨0, ?_⟩
    show s.tx.sm.pcieTxState = .rst
    rw [WriteRun.clocksLeft] at hk
    split at hk
    · assumption
    all_goals omega
  | succ k ih =>
    by_cases hrst : s.tx.sm.pcieTxState = .rst
    · exact ⟨0, hrst⟩
    · obtain ⟨hfed, hclocks⟩ := h.step hrst (hready 0)
      obtain ⟨n, hn⟩ := ih hfed (fun k => cs (k + 1)) (fun n => hready (n + 1)) (by omega)
      exact ⟨n + 1, hn⟩

/-! ### The payload -/

/-- **The payload of memory writes.** In careful clocks the endpoint takes, after the header of
each write, the next words of the FIFO with their halves swapped, each once, and the end of frame on
the last only; and a TLP whose words are there finishes once the endpoint stays ready. -/
theorem payload_in_order (h : carefulWrites.Reachable s) :
    (∃ e, Endpoint.takeAll ⟨.idle, s.arrived⟩ s.accepted = some e) ∧
      (s.wordsLeft ≤ s.waiting.length → ∀ cs : ℕ → Clock,
        (∀ n, (cs n).others.trnTdstRdyN = false) →
        ∃ n, (s.after cs n).tx.sm.pcieTxState = .rst) :=
  ⟨Endpoint.takeAll_of_append (follows_of_reachable h),
    fun hwords cs hready => ((settled_of_reachable h).fed hwords).finishes cs hready⟩

/-- A write of four DWords. -/
def sampleWrite : WriteReq := ⟨⟨4, 0, 0⟩, rfl⟩

/-- A clock in which the endpoint is ready or not and some words arrive. -/
def clockOf (trnTdstRdyN : Bool) (arrive : List (BitVec 64)) (request : Option WriteReq) : Clock :=
  ⟨{ (default : TxIn) with trnTdstRdyN }, arrive, request⟩

/-- A write whose words are both there when the endpoint stalls. -/
def wordsBehindStall : List Clock :=
  [clockOf false [] (some sampleWrite), clockOf false [] none, clockOf false [1, 2] none,
    clockOf false [] none, clockOf true [] none, clockOf true [] none, clockOf false [] none,
    clockOf false [3] none, clockOf false [] none]

theorem wordsBehindStall_reachable :
    carefulWrites.Reachable (WriteRun.run {} wordsBehindStall) := by
  have hf : ∀ (c : Clock) (s t : WriteRun),
      (if Careful s c then some (s.next c) else none) = some t → carefulWrites.step s t := by
    intro c s t h
    split at h
    · exact ⟨c, ‹_›, (Option.some.inj h).symm⟩
    · cases h
  exact @TransitionSystem.Reachable.run _ _ _ _ hf wordsBehindStall _ _ (.init rfl) rfl

theorem payload_in_order_wordsBehindStall :
    (∃ e, Endpoint.takeAll ⟨.idle, [1, 2, 3]⟩ (WriteRun.run {} wordsBehindStall).accepted =
        some e) ∧
      ((WriteRun.run {} wordsBehindStall).wordsLeft ≤
          (WriteRun.run {} wordsBehindStall).waiting.length →
        ∀ cs : ℕ → Clock, (∀ n, (cs n).others.trnTdstRdyN = false) →
        ∃ n, ((WriteRun.run {} wordsBehindStall).after cs n).tx.sm.pcieTxState = .rst) :=
  payload_in_order wordsBehindStall_reachable

/-- A write whose first word comes during a stall, and whose second and third come after it. -/
def emptyBehindStall : List Clock :=
  [clockOf false [] (some sampleWrite), clockOf false [] none, clockOf false [] none,
    clockOf false [1] none, clockOf true [] none, clockOf false [2] none, clockOf false [3] none,
    clockOf false [] none, clockOf false [] none, clockOf false [] none]

/-- The same write, with a stall in the clock after the FIFO ran empty. -/
def stallInBubble : List Clock :=
  [clockOf false [] (some sampleWrite), clockOf false [] none, clockOf false [] none,
    clockOf false [] none, clockOf false [] none, clockOf true [] none, clockOf false [1] none,
    clockOf false [2] none, clockOf false [] none, clockOf false [] none]

/-- The second word is lost: the third follows the first. -/
theorem word_lost :
    ((WriteRun.run {} emptyBehindStall).accepted.drop 2).map Beat.td = [swapHalves 1, swapHalves 3] ∧
      (WriteRun.run {} emptyBehindStall).arrived = [1, 2, 3] ∧
      Endpoint.takeAll ⟨.idle, (WriteRun.run {} emptyBehindStall).arrived⟩
        (WriteRun.run {} emptyBehindStall).accepted = none := by
  decide

/-- The second quadword of the header is sent twice, the second time as payload. -/
theorem quadword_repeated :
    Endpoint.takeAll ⟨.idle, (WriteRun.run {} stallInBubble).arrived⟩
      (WriteRun.run {} stallInBubble).accepted = none := by
  decide

/-- A word that is set aside does not go out by itself. -/
theorem starved_step (hstate : s.tx.sm.pcieTxState = .mwr64Qwn) (hfifo : s.fifo = [])
    (hready : c.others.trnTdstRdyN = false) (harrive : c.arrive = []) :
    (s.next c).tx.sm.pcieTxState = .mwr64Qwn ∧ (s.next c).fifo = [] := by
  have hin : (s.inputs c).trnTdstRdyN = false := hready
  have hhead : ¬ (s.inputs c).f2hFifoValid = true := by simp [WriteRun.inputs, hfifo]
  refine ⟨?_, ?_⟩
  · show (s.tx.mainSm (s.inputs c)).pcieTxState = _
    rw [TxWrapper.mainSm, hstate]
    simp only [TxWrapper.mainQwn]
    rw [if_pos hin, if_neg hhead]
    exact hstate
  · show (if s.tx.sm.f2hFifoRen then s.fifo.tail else s.fifo) ++ c.arrive = []
    rw [hfifo, harrive, List.tail_nil, ite_self, List.append_nil]

theorem starved (hstate : s.tx.sm.pcieTxState = .mwr64Qwn) (hfifo : s.fifo = []) (cs : ℕ → Clock)
    (hready : ∀ n, (cs n).others.trnTdstRdyN = false) (harrive : ∀ n, (cs n).arrive = [])
    (n : ℕ) : (s.after cs n).tx.sm.pcieTxState = .mwr64Qwn := by
  induction n generalizing s cs with
  | zero => exact hstate
  | succ n ih =>
    obtain ⟨hstate', hfifo'⟩ := starved_step hstate hfifo (hready 0) (harrive 0)
    exact ih hstate' hfifo' _ (fun k => hready (k + 1)) (fun k => harrive (k + 1))

/-- A write whose last word is set aside in a stall, with nothing behind it. -/
def lastSetAside : List Clock :=
  [clockOf false [] (some sampleWrite), clockOf false [] none, clockOf false [1] none,
    clockOf false [] none, clockOf false [2] none, clockOf true [] none]

/-- All words of the TLP are there and the endpoint is ready, and the machine waits for a word of
the next write. -/
theorem tlp_stuck :
    (WriteRun.run {} lastSetAside).wordsLeft ≤ (WriteRun.run {} lastSetAside).waiting.length ∧
      ∀ cs : ℕ → Clock, (∀ n, (cs n).others.trnTdstRdyN = false) →
        (∀ n, (cs n).arrive = []) → ∀ n,
        ((WriteRun.run {} lastSetAside).after cs n).tx.sm.pcieTxState = .mwr64Qwn := by
  refine ⟨by decide, fun cs hready harrive n => ?_⟩
  exact starved (by decide) (by decide) cs hready harrive n

end PcieCsr

end LeapPlatforms
