import Mathlib.Algebra.Group.Even
import Mathlib.Data.List.Infix
import Mathlib.Tactic.Common
import Mathlib.Tactic.IntervalCases

/-!
# The handshake of the SATA Aurora link

The receiver throws words away until the four words of the handshake have come in a row. A word that
does not fit starts the count again from nothing, also when it is the first word of a new handshake.
So a handshake directly behind an unfinished one is missed, unless that one was missed itself.

## Main definitions

* `RxSide`, `RxSide.receive` — the rules `rxHandshake` and `rx`
* `FirstHandshake`, `Detects` — what is said of a sequence of words
* `Partial`, `EvenlyRestarted` — when the receiver is at the start as the handshake comes

## Main results

* `handshakeRX_restarted` — the count behind unfinished handshakes in a row
* `detects_iff`
-/

namespace LeapPlatforms

namespace SataAurora

/-- The words of the handshake. -/
def handshake : List (BitVec 16) := [0xdead, 0xbeef, 0xcafe, 0xfeed]

def handshakeWords (i : BitVec 2) : BitVec 16 := handshake.getD i.toNat 0

/-! ### The receiver -/

/-- The registers of the receiving side, and what was put into `serdes_rxfifo`. -/
structure RxSide where
  handshakeRX : BitVec 2 := 0
  handshakeRXDone : Bool := false
  serdesRxfifo : List (BitVec 16) := []

namespace RxSide

variable (s : RxSide) (data : BitVec 16)

def rxHandshake : RxSide :=
  let handshakeMatch := decide (handshakeWords s.handshakeRX = data)
  { s with
    handshakeRX := if handshakeMatch then s.handshakeRX + 1 else 0
    handshakeRXDone :=
      if s.handshakeRX + 1 = 0 ∧ handshakeMatch then true else s.handshakeRXDone }

def rx : RxSide := { s with serdesRxfifo := s.serdesRxfifo ++ [data] }

/-- The rule that takes a word. -/
def receive : RxSide := if s.handshakeRXDone then s.rx data else s.rxHandshake data

end RxSide

/-- From a reset on. -/
def received (ws : List (BitVec 16)) : RxSide := ws.foldl RxSide.receive {}

/-! ### What is said of it -/

/-- The last four words are those of the handshake, for the first time. -/
structure FirstHandshake (ws : List (BitVec 16)) : Prop where
  last : handshake <:+ ws
  first : ∀ q, q <+: ws → handshake <:+ q → q = ws

/-- The receiver finds the handshake and delivers what comes behind it, whatever comes before. -/
structure Detects (ws : List (BitVec 16)) : Prop where
  done : ∀ p, p <+: ws →
    ((received p).handshakeRXDone = true ↔ ∃ q, q <+: p ∧ FirstHandshake q)
  before : ∀ p, p <+: ws → (¬ ∃ q, q <+: p ∧ FirstHandshake q) → (received p).serdesRxfifo = []
  behind : ∀ q v, q ++ v <+: ws → FirstHandshake q → (received (q ++ v)).serdesRxfifo = v

/-- An unfinished handshake. -/
def Partial (s : List (BitVec 16)) : Prop := s ≠ [] ∧ s ≠ handshake ∧ s <+: handshake

/-- The words end in an even number of unfinished handshakes in a row, counted as far as they go. -/
def EvenlyRestarted (u : List (BitVec 16)) : Prop :=
  ∃ (v : List (BitVec 16)) (ss : List (List (BitVec 16))), u = v ++ ss.flatten ∧
    (∀ s ∈ ss, Partial s) ∧ Even ss.length ∧ ∀ s, Partial s → ¬ s <:+ v

/-! ### The count -/

namespace RxSide

variable {s : RxSide} {ws : List (BitVec 16)}

/-- Run through some words. -/
def receiveAll (s : RxSide) (ws : List (BitVec 16)) : RxSide := ws.foldl receive s

theorem receiveAll_append (s : RxSide) (ws vs : List (BitVec 16)) :
    s.receiveAll (ws ++ vs) = (s.receiveAll ws).receiveAll vs :=
  List.foldl_append

/-- When the handshake is over all words are delivered. -/
theorem receiveAll_of_done (h : s.handshakeRXDone = true) (ws : List (BitVec 16)) :
    s.receiveAll ws = { s with serdesRxfifo := s.serdesRxfifo ++ ws } := by
  induction ws generalizing s with
  | nil => simp [receiveAll]
  | cons w ws ih =>
    have hrx : s.receive w = s.rx w := if_pos h
    show (s.receive w).receiveAll ws = _
    rw [hrx, ih (by exact h), rx]
    simp

end RxSide

theorem partial_cases {p : List (BitVec 16)} (h : Partial p) :
    p = [0xdead] ∨ p = [0xdead, 0xbeef] ∨ p = [0xdead, 0xbeef, 0xcafe] := by
  obtain ⟨hne, hfull, hpre⟩ := h
  have htake := List.prefix_iff_eq_take.mp hpre
  have hle : p.length ≤ 4 := hpre.length_le
  have hpos := List.length_pos_of_ne_nil hne
  generalize p.length = n at htake hle hpos
  subst htake
  interval_cases n
  · exact Or.inl rfl
  · exact Or.inr (Or.inl rfl)
  · exact Or.inr (Or.inr rfl)
  · exact absurd rfl hfull

theorem count_cases (c : BitVec 2) : c = 0 ∨ c = 1 ∨ c = 2 ∨ c = 3 := by
  revert c
  decide

namespace RxSide

variable {s : RxSide} {ws : List (BitVec 16)}

/-- An unfinished handshake is counted from the start, and resets any other count. -/
theorem receiveAll_partial {p : List (BitVec 16)} (hp : Partial p)
    (hs : s.handshakeRXDone = false) :
    s.receiveAll p =
      { s with handshakeRX := if s.handshakeRX = 0 then BitVec.ofNat 2 p.length else 0 } := by
  obtain ⟨c, done, fifo⟩ := s
  obtain rfl : done = false := hs
  rcases partial_cases hp with rfl | rfl | rfl <;>
    rcases count_cases c with rfl | rfl | rfl | rfl <;>
    simp [receiveAll, receive, rxHandshake, handshakeWords, handshake]

/-- The handshake is found from the start, and missed with any other count. -/
theorem receiveAll_handshake (hs : s.handshakeRXDone = false) :
    s.receiveAll handshake =
      { s with handshakeRX := 0, handshakeRXDone := decide (s.handshakeRX = 0) } := by
  obtain ⟨c, done, fifo⟩ := s
  obtain rfl : done = false := hs
  rcases count_cases c with rfl | rfl | rfl | rfl <;>
    simp [receiveAll, receive, rxHandshake, handshakeWords, handshake]

theorem count_ne_zero {p : List (BitVec 16)} (hp : Partial p) : BitVec.ofNat 2 p.length ≠ 0 := by
  rcases partial_cases hp with rfl | rfl | rfl <;> decide

/-- Unfinished handshakes in a row are counted and missed in turn. -/
theorem receiveAll_flatten {ss : List (List (BitVec 16))} (hss : ∀ p ∈ ss, Partial p)
    (hs : s.handshakeRXDone = false) :
    (s.receiveAll ss.flatten).handshakeRXDone = false ∧
      ((s.receiveAll ss.flatten).handshakeRX = 0 ↔ (s.handshakeRX = 0 ↔ Even ss.length)) := by
  induction ss generalizing s with
  | nil => simpa [receiveAll] using hs
  | cons p ss ih =>
    have hp : Partial p := hss p List.mem_cons_self
    rw [List.flatten_cons, receiveAll_append, receiveAll_partial hp hs]
    obtain ⟨hdone, hcount⟩ := ih (fun q hq => hss q (List.mem_cons_of_mem p hq))
      (s := { s with handshakeRX := if s.handshakeRX = 0 then BitVec.ofNat 2 p.length else 0 }) hs
    have hflip : (if s.handshakeRX = 0 then BitVec.ofNat 2 p.length else 0) = 0 ↔
        s.handshakeRX ≠ 0 := by
      by_cases hzero : s.handshakeRX = 0
      · rw [if_pos hzero]
        exact iff_of_false (count_ne_zero hp) (not_not.mpr hzero)
      · rw [if_neg hzero]
        exact iff_of_true rfl hzero
    refine ⟨hdone, hcount.trans ?_⟩
    rw [hflip, List.length_cons, Nat.even_add_one]
    tauto

end RxSide

/-! ### Before the handshake -/

/-- What the registers say of the words so far. -/
structure Counted (ws : List (BitVec 16)) (s : RxSide) : Prop where
  count : s.handshakeRXDone = false → handshake.take s.handshakeRX.toNat <:+ ws
  done : s.handshakeRXDone = true → ∃ q, q <+: ws ∧ handshake <:+ q
  fifo : s.handshakeRXDone = false → s.serdesRxfifo = []

theorem received_append (ws vs : List (BitVec 16)) :
    received (ws ++ vs) = (received ws).receiveAll vs :=
  RxSide.receiveAll_append {} ws vs

theorem Counted.receive {ws : List (BitVec 16)} {s : RxSide} (h : Counted ws s) (w : BitVec 16) :
    Counted (ws ++ [w]) (s.receive w) := by
  cases hs : s.handshakeRXDone with
  | true =>
    obtain ⟨q, hq, hlast⟩ := h.done hs
    have hrx : s.receive w = s.rx w := if_pos hs
    have hdone : (s.rx w).handshakeRXDone = true := hs
    rw [hrx]
    refine ⟨fun hno => ?_, fun _ => ⟨q, hq.trans (List.prefix_append ws [w]), hlast⟩, fun hno => ?_⟩
    · cases hdone.symm.trans hno
    · cases hdone.symm.trans hno
  | false =>
    have hcount := h.count hs
    have hfifo := h.fifo hs
    obtain ⟨c, done, fifo⟩ := s
    obtain rfl : done = false := hs
    obtain rfl : fifo = [] := hfifo
    have hrx : RxSide.receive ⟨c, false, []⟩ w = RxSide.rxHandshake ⟨c, false, []⟩ w := rfl
    rw [hrx, RxSide.rxHandshake]
    by_cases hmatch : handshakeWords c = w
    · -- the words that fit are one more
      subst hmatch
      have hmore : handshake.take c.toNat ++ [handshakeWords c] <:+ ws ++ [handshakeWords c] :=
        List.suffix_append_self_iff.mpr hcount
      rcases count_cases c with rfl | rfl | rfl | rfl
      · exact ⟨fun _ => hmore, by rintro ⟨⟩, fun _ => rfl⟩
      · exact ⟨fun _ => hmore, by rintro ⟨⟩, fun _ => rfl⟩
      · exact ⟨fun _ => hmore, by rintro ⟨⟩, fun _ => rfl⟩
      · exact ⟨by rintro ⟨⟩, fun _ => ⟨_, List.prefix_refl _, hmore⟩, by rintro ⟨⟩⟩
    · simp only [hmatch, decide_false, Bool.false_eq_true, if_false, and_false]
      exact ⟨fun _ => List.nil_suffix, by rintro ⟨⟩, fun _ => rfl⟩

theorem counted (ws : List (BitVec 16)) : Counted ws (received ws) := by
  induction ws using List.reverseRecOn with
  | nil => exact ⟨fun _ => List.nil_suffix, by rintro ⟨⟩, fun _ => rfl⟩
  | append_singleton ws w ih =>
    rw [received_append]
    exact ih.receive w

/-- A handshake comes for a first time. -/
theorem exists_firstHandshake {p q : List (BitVec 16)} (hq : q <+: p) (hlast : handshake <:+ q) :
    ∃ f, f <+: p ∧ FirstHandshake f := by
  induction hlen : q.length using Nat.strong_induction_on generalizing q with
  | _ n ih =>
    by_cases hfirst : FirstHandshake q
    · exact ⟨q, hq, hfirst⟩
    · have hearlier : ∃ r, r <+: q ∧ handshake <:+ r ∧ r ≠ q := by
        by_contra hno
        refine hfirst ⟨hlast, fun r hr hrlast => ?_⟩
        by_contra hne
        exact hno ⟨r, hr, hrlast, hne⟩
      obtain ⟨r, hr, hrlast, hne⟩ := hearlier
      have hless : r.length < n := by
        rw [← hlen]
        exact Nat.lt_of_le_of_ne hr.length_le fun heq => hne (hr.eq_of_length heq)
      exact ih _ hless (hr.trans hq) hrlast rfl

theorem not_done {p : List (BitVec 16)} (h : ¬ ∃ q, q <+: p ∧ FirstHandshake q) :
    (received p).handshakeRXDone = false := by
  by_contra hdone
  obtain ⟨q, hq, hlast⟩ := (counted p).done (by simpa using hdone)
  exact h (exists_firstHandshake hq hlast)

/-- The receiver is at the start when the words do not end in an unfinished handshake. -/
theorem count_of_no_partial {v : List (BitVec 16)} (hv : ∀ s, Partial s → ¬ s <:+ v)
    (hdone : (received v).handshakeRXDone = false) : (received v).handshakeRX = 0 := by
  have hcount := (counted v).count hdone
  rcases count_cases (received v).handshakeRX with h | h | h | h
  · exact h
  · rw [h] at hcount
    exact absurd hcount (hv _ ⟨by decide, by decide, by decide⟩)
  · rw [h] at hcount
    exact absurd hcount (hv _ ⟨by decide, by decide, by decide⟩)
  · rw [h] at hcount
    exact absurd hcount (hv _ ⟨by decide, by decide, by decide⟩)

/-- Unfinished handshakes at the end can be counted off. -/
theorem exists_restarted (u : List (BitVec 16)) :
    ∃ (v : List (BitVec 16)) (ss : List (List (BitVec 16))), u = v ++ ss.flatten ∧
      (∀ s ∈ ss, Partial s) ∧ ∀ s, Partial s → ¬ s <:+ v := by
  induction hlen : u.length using Nat.strong_induction_on generalizing u with
  | _ n ih =>
    by_cases hends : ∃ s, Partial s ∧ s <:+ u
    · obtain ⟨s, hs, t, rfl⟩ := hends
      have hless : t.length < n := by
        have hpos := List.length_pos_of_ne_nil hs.1
        rw [← hlen, List.length_append]
        omega
      obtain ⟨v, ss, rfl, hss, hv⟩ := ih _ hless t rfl
      refine ⟨v, ss ++ [s], by simp, fun p hp => ?_, hv⟩
      rcases List.mem_append.mp hp with hp | hp
      · exact hss p hp
      · obtain rfl := List.mem_singleton.mp hp
        exact hs
    · exact ⟨u, [], by simp, by simp, fun s hs hsuffix => hends ⟨s, hs, hsuffix⟩⟩

/-- **The count behind unfinished handshakes in a row.** -/
theorem handshakeRX_restarted {u : List (BitVec 16)} (h : ¬ ∃ q, q <+: u ∧ FirstHandshake q) :
    (received u).handshakeRX = 0 ↔ EvenlyRestarted u := by
  have hcount : ∀ (v : List (BitVec 16)) (ss : List (List (BitVec 16))), u = v ++ ss.flatten →
      (∀ s ∈ ss, Partial s) → (∀ s, Partial s → ¬ s <:+ v) →
        ((received u).handshakeRX = 0 ↔ Even ss.length) := by
    rintro v ss rfl hss hv
    have hdone : (received v).handshakeRXDone = false := by
      refine not_done fun hq => h ?_
      obtain ⟨q, hq, hfirst⟩ := hq
      exact ⟨q, hq.trans (List.prefix_append v _), hfirst⟩
    rw [received_append, (RxSide.receiveAll_flatten hss hdone).2, count_of_no_partial hv hdone]
    simp
  constructor
  · intro hzero
    obtain ⟨v, ss, hu, hss, hv⟩ := exists_restarted u
    exact ⟨v, ss, hu, hss, (hcount v ss hu hss hv).mp hzero, hv⟩
  · rintro ⟨v, ss, hu, hss, heven, hv⟩
    exact (hcount v ss hu hss hv).mpr heven

/-! ### The handshake -/

theorem FirstHandshake.exists_append {q : List (BitVec 16)} (h : FirstHandshake q) :
    ∃ u, q = u ++ handshake ∧ ¬ ∃ r, r <+: u ∧ FirstHandshake r := by
  obtain ⟨⟨u, rfl⟩, hfirst⟩ := h
  refine ⟨u, rfl, ?_⟩
  rintro ⟨r, hr, hrfirst⟩
  have heq := hfirst r (hr.trans (List.prefix_append u handshake)) hrfirst.last
  have hlen := hr.length_le
  rw [heq, List.length_append] at hlen
  exact absurd hlen (by simp [handshake])

/-- The registers behind the handshake. -/
theorem received_handshake {u : List (BitVec 16)} (h : ¬ ∃ r, r <+: u ∧ FirstHandshake r) :
    (received (u ++ handshake)).serdesRxfifo = [] ∧
      ((received (u ++ handshake)).handshakeRXDone = true ↔ EvenlyRestarted u) := by
  have hdone := not_done h
  rw [received_append, RxSide.receiveAll_handshake hdone, ← handshakeRX_restarted h]
  exact ⟨(counted u).fifo hdone, by simp⟩

/-- **Detection of the handshake.** The receiver finds the handshake, and delivers the words behind
it, just when the words before the first one end in an even number of unfinished handshakes. -/
theorem detects_iff (ws : List (BitVec 16)) :
    Detects ws ↔ ∀ u, u ++ handshake <+: ws → FirstHandshake (u ++ handshake) →
      EvenlyRestarted u := by
  constructor
  · intro h u hu hfirst
    obtain ⟨v, hv, hnone⟩ := hfirst.exists_append
    obtain rfl := List.append_cancel_right hv
    rw [← (received_handshake hnone).2]
    exact (h.done _ hu).mpr ⟨_, List.prefix_refl _, hfirst⟩
  · intro h
    have hbehind : ∀ q v, q ++ v <+: ws → FirstHandshake q →
        received (q ++ v) = { received q with serdesRxfifo := v } ∧
          (received q).handshakeRXDone = true := by
      intro q v hqv hfirst
      obtain ⟨u, rfl, hnone⟩ := hfirst.exists_append
      obtain ⟨hfifo, hdone⟩ := received_handshake hnone
      have heven := h u ((List.prefix_append _ v).trans hqv) hfirst
      rw [received_append, RxSide.receiveAll_of_done (hdone.mpr heven), hfifo]
      exact ⟨rfl, hdone.mpr heven⟩
    refine ⟨fun p hp => ⟨fun hdone => ?_, ?_⟩, fun p hp hnone => ?_, fun q v hqv hfirst => ?_⟩
    · obtain ⟨q, hq, hlast⟩ := (counted p).done hdone
      exact exists_firstHandshake hq hlast
    · rintro ⟨q, ⟨v, rfl⟩, hfirst⟩
      obtain ⟨hrun, hdone⟩ := hbehind q v hp hfirst
      rw [hrun]
      exact hdone
    · exact (counted p).fifo (not_done hnone)
    · rw [(hbehind q v hqv hfirst).1]

/-- A word of the handshake before the handshake. -/
theorem handshake_missed : ¬ Detects [0xdead, 0xdead, 0xbeef, 0xcafe, 0xfeed] := by
  intro h
  have hmissed : (received [0xdead, 0xdead, 0xbeef, 0xcafe, 0xfeed]).handshakeRXDone = false := by
    decide
  have hlast : handshake <:+ [0xdead, 0xdead, 0xbeef, 0xcafe, 0xfeed] := ⟨[0xdead], rfl⟩
  have hfound := (h.done _ (List.prefix_refl _)).mpr
    (exists_firstHandshake (List.prefix_refl _) hlast)
  exact absurd (hmissed.symm.trans hfound) (by decide)

/-- With two of them it is found. -/
example : (received [0xdead, 0xdead, 0xdead, 0xbeef, 0xcafe, 0xfeed]).handshakeRXDone = true := by
  decide

end SataAurora

end LeapPlatforms
