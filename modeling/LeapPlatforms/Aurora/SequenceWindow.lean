import LeapPlatforms.Aurora.ReliableSender

/-!
# Sequence numbers modulo eight

The reliable drivers number frames modulo `sequence_numbers`, and let `max_frames` of them be
outstanding. This module says why that is enough: inside a window of `2 * max_frames` numbers a
frame number is determined by its residue, and the receiver's test for frames from the future,
written with three comparisons of three-bit registers, is right for every frame of the window.

## Main definitions

* `wrap` — a frame number as a sequence number
* `futureFrame` — the clauses of `frameErrorNext` that look at sequence numbers

## Main results

* `wrap_injOn_window`
* `futureFrame_wrap` — inside the window the test is `done < f`
-/

namespace LeapPlatforms

namespace Aurora

/-- The sequence number of a frame. -/
def wrap (f : ℕ) : ℕ := f % sequenceNumbers

theorem wrap_lt (f : ℕ) : wrap f < 8 := Nat.mod_lt _ (by decide)

theorem wrap_succ (f : ℕ) : (wrap f + 1) % sequenceNumbers = wrap (f + 1) := by
  simp [wrap, sequenceNumbers]

/-- The sequence numbers of `n` frames from `f` on. -/
def wraps (f n : ℕ) : List ℕ := (List.range' f n).map wrap

@[simp] theorem wraps_zero (f : ℕ) : wraps f 0 = [] := rfl

theorem wraps_succ (f n : ℕ) : wraps f (n + 1) = wrap f :: wraps (f + 1) n := rfl

theorem wraps_append (f m n : ℕ) : wraps f m ++ wraps (f + m) n = wraps f (m + n) := by
  rw [wraps, wraps, wraps, ← List.map_append, List.range'_append_1]

theorem wraps_concat (f n : ℕ) : wraps f n ++ [wrap (f + n)] = wraps f (n + 1) :=
  wraps_append f n 1

@[simp] theorem wraps_length (f n : ℕ) : (wraps f n).length = n := by simp [wraps]

/-- Two frames of one window with the same sequence number are the same frame. -/
theorem wrap_injOn_window {b f f' : ℕ} (h : wrap f = wrap f') (hb : b ≤ f + maxFrames)
    (hf : f < b + maxFrames) (hb' : b ≤ f' + maxFrames) (hf' : f' < b + maxFrames) : f = f' := by
  simp only [wrap, sequenceNumbers, maxFrames] at *
  omega

/-- The clauses of `frameErrorNext` that look at sequence numbers. The top bit of a three-bit
number is set from 4 on; the second clause handles the wrap-around, where the numbers from zero on
are younger than those with the top bit set. -/
def futureFrame (sequenceNumberRX headerSequence : ℕ) : Bool :=
  let headerTop := headerSequence / 4
  let seqTop := sequenceNumberRX / 4
  (sequenceNumberRX < headerSequence && !(headerTop == 1 && sequenceNumberRX < maxFrames)) ||
    (seqTop == 1 && headerSequence < maxFrames)

theorem futureFrame_iff (s h : ℕ) : futureFrame s h = true ↔
    (s < h ∧ ¬ (h / 4 = 1 ∧ s < maxFrames)) ∨ (s / 4 = 1 ∧ h < maxFrames) := by
  simp [futureFrame, imp_iff_not_or]

/-- **The receiver's test.** For every frame that can be on the link, the comparison of sequence
numbers tells exactly whether the frame lies beyond the one the receiver waits for. -/
theorem futureFrame_wrap {done f : ℕ} (hlo : done ≤ f + maxFrames) (hhi : f < done + maxFrames) :
    futureFrame (wrap done) (wrap f) = decide (done < f) := by
  rw [Bool.eq_iff_iff, futureFrame_iff, decide_eq_true_iff]
  simp only [wrap, sequenceNumbers, maxFrames] at *
  omega

end Aurora

end LeapPlatforms
