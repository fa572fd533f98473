import LeapPlatforms.Foundation.CrcPolynomial
import LeapPlatforms.Aurora.Grouped

/-!
# What the grouped checksum detects

`doHash` is a cyclic redundancy check with the divisor `0x183`: eight degrees, a constant term and
an even number of terms. A flit is extended by zeros at its high end to the 64 bits that `doHash`
takes, which changes none of this, and the receiver looks at the checksum of the last flit of a
group, which continues those of the flits before it.

## Main definitions

* `IsCrc` — the check bits, linearity, and the errors that a chain detects

## Main results

* `isCrc_hash` — the loop, on words of any length
* `isCrc_setWidth` — shorter words, extended by zeros
* `notCorrupt_group` — what the receiver checks is the chain over the group
* `doHash_isCrc`
-/

namespace LeapPlatforms

namespace Aurora

namespace Grouped

open LossyLink (Flit)

variable {w : ℕ}

/-- A checksum of words that can be chained, with the guarantees of a cyclic redundancy check. -/
structure IsCrc (hash : BitVec 8 → BitVec w → BitVec 8) : Prop where
  /-- A word passes with exactly one value of its low eight bits: its checksum without them. -/
  check : ∀ (init c : BitVec 8) (data : BitVec w), data.setWidth 8 = 0 →
    (hash init (data ||| c.setWidth w) = 0 ↔ c = hash init data)
  /-- The checksum is linear in both arguments together. -/
  linear : ∀ (init init' : BitVec 8) (data data' : BitVec w),
    hash (init ^^^ init') (data ^^^ data') = hash init data ^^^ hash init' data'
  /-- A group that passes does not pass with a burst of eight bits in one of its words. -/
  burst : ∀ (init : BitVec 8) (words errors : List (BitVec w)), words.length = errors.length →
    words.foldl hash init = 0 → Crc.BurstError errors →
      (Crc.corrupt words errors).foldl hash init ≠ 0
  /-- A group that passes does not pass with an odd number of bits altered. -/
  odd : ∀ (init : BitVec 8) (words errors : List (BitVec w)), words.length = errors.length →
    words.foldl hash init = 0 → Odd (errors.map Crc.weight).sum →
      (Crc.corrupt words errors).foldl hash init ≠ 0

/-- The loop with the driver's divisor, on words of any length from eight bits on. -/
theorem isCrc_hash (hw : 8 ≤ w) : IsCrc fun init (data : BitVec w) => Crc.hash 0x183 init data where
  check init c _ hdata := Crc.hash_check (by decide) hw init c hdata
  linear := Crc.hash_xor (by decide)
  burst init _ _ hlen hwords herrors :=
    Crc.chain_burst (by decide) (by decide) init hlen hwords herrors
  odd init _ _ hlen hwords herrors :=
    Crc.chain_odd (by decide) (by decide) init hlen hwords herrors

/-! ### Words extended by zeros -/

theorem getLsbD_setWidth_of_le {v : ℕ} (h : w ≤ v) (x : BitVec w) (i : ℕ) :
    (x.setWidth v).getLsbD i = x.getLsbD i := by
  rw [BitVec.getLsbD_setWidth]
  by_cases hi : i < v
  · simp [hi]
  · simp [hi, BitVec.getLsbD_of_ge x i (by omega)]

theorem weight_setWidth {v : ℕ} (h : w ≤ v) (x : BitVec w) :
    Crc.weight (x.setWidth v) = Crc.weight x := by
  rw [Crc.weight, Crc.weight]
  congr 1
  ext i
  rw [Finset.mem_filter, Finset.mem_filter, getLsbD_setWidth_of_le h, Finset.mem_range,
    Finset.mem_range]
  constructor
  · rintro ⟨_, hbit⟩
    exact ⟨BitVec.lt_of_getLsbD hbit, hbit⟩
  · rintro ⟨hi, hbit⟩
    exact ⟨Nat.lt_of_lt_of_le hi h, hbit⟩

theorem eq_zero_of_setWidth {v : ℕ} (h : w ≤ v) {x : BitVec w} (hx : x.setWidth v = 0) : x = 0 := by
  refine BitVec.eq_of_getLsbD_eq fun i _ => ?_
  rw [← getLsbD_setWidth_of_le h, hx]
  simp

theorem burst_setWidth {v : ℕ} (h : w ≤ v) {e : BitVec w} (he : Crc.Burst e) :
    Crc.Burst (e.setWidth v) := by
  obtain ⟨k, hk⟩ := he
  exact ⟨k, fun i hi => hk i (by rwa [getLsbD_setWidth_of_le h] at hi)⟩

theorem burstError_setWidth {v : ℕ} (h : w ≤ v) {errors : List (BitVec w)}
    (herrors : Crc.BurstError errors) : Crc.BurstError (errors.map fun e => e.setWidth v) := by
  obtain ⟨before, e, behind, rfl, hbefore, hbehind, hne, hburst⟩ := herrors
  have hzero : ∀ l : List (BitVec w), (∀ x ∈ l, x = 0) →
      ∀ y ∈ l.map fun x => x.setWidth v, y = 0 := by
    intro l hl y hy
    obtain ⟨x, hx, rfl⟩ := List.mem_map.mp hy
    rw [hl x hx]
    exact BitVec.setWidth_zero v w
  refine ⟨_, e.setWidth v, _, by rw [List.map_append, List.map_cons], hzero _ hbefore,
    hzero _ hbehind, fun hz => hne (eq_zero_of_setWidth h hz), burst_setWidth h hburst⟩

theorem corrupt_setWidth {v : ℕ} (words errors : List (BitVec w)) :
    (Crc.corrupt words errors).map (fun x => x.setWidth v) =
      Crc.corrupt (words.map fun x => x.setWidth v) (errors.map fun x => x.setWidth v) := by
  induction words generalizing errors with
  | nil => rfl
  | cons x words ih =>
    rcases errors with _ | ⟨e, errors⟩
    · rfl
    · change (x ^^^ e).setWidth v :: (Crc.corrupt words errors).map _ = _
      rw [ih, BitVec.setWidth_xor]
      rfl

/-- Zeros at the high end of every word change none of the guarantees. -/
theorem isCrc_setWidth {v : ℕ} {hash : BitVec 8 → BitVec v → BitVec 8} (hw : 8 ≤ w) (h : w ≤ v)
    (hcrc : IsCrc hash) : IsCrc fun init (data : BitVec w) => hash init (data.setWidth v) where
  check init c data hdata := by
    have hlow : (data.setWidth v).setWidth 8 = 0 := by
      rw [BitVec.setWidth_setWidth_of_le _ (by omega)]
      exact hdata
    have hc : (c.setWidth w).setWidth v = c.setWidth v := by
      refine BitVec.eq_of_getLsbD_eq fun i _ => ?_
      rw [getLsbD_setWidth_of_le h, getLsbD_setWidth_of_le hw, getLsbD_setWidth_of_le (by omega)]
    rw [BitVec.setWidth_or, hc]
    exact hcrc.check init c _ hlow
  linear init init' data data' := by
    rw [BitVec.setWidth_xor]
    exact hcrc.linear init init' _ _
  burst init words errors hlen hwords herrors := by
    rw [← List.foldl_map (f := fun x : BitVec w => x.setWidth v)] at hwords ⊢
    rw [corrupt_setWidth]
    exact hcrc.burst init _ _ (by simpa using hlen) hwords (burstError_setWidth h herrors)
  odd init words errors hlen hwords herrors := by
    have hsum : ((errors.map fun e => e.setWidth v).map Crc.weight).sum =
        (errors.map Crc.weight).sum := by
      rw [List.map_map]
      congr 1
      exact List.map_congr_left fun e _ => weight_setWidth h e
    rw [← List.foldl_map (f := fun x : BitVec w => x.setWidth v)] at hwords ⊢
    rw [corrupt_setWidth]
    exact hcrc.odd init _ _ (by simpa using hlen) hwords (hsum ▸ herrors)

/-! ### The receiver's check -/

variable {F : Format}

/-- A group of flits, as the receiver examines it: all are payload flits, and `x` is the last. -/
structure Group (e : Core F) (before : List (Flit (Raw F))) (x : Flit (Raw F)) : Prop where
  /-- The receiver is that many flits from the end of the group. -/
  length : e.fragmentNumberRX + before.length + 1 = F.interfaceWords
  payload : ∀ y ∈ before, ctrlOf y.raw = Grouped.payload
  payload_last : ctrlOf x.raw = Grouped.payload

/-- The chain of checksums over flits. -/
def groupHash (init : BitVec 8) (group : List (Flit (Raw F))) : BitVec 8 :=
  group.foldl (fun parity y => doHash parity (y.raw.setWidth 64)) init

/-- **The receiver checks the chain.** At the end of a group `notCorrupt` is that the checksums
chained over its flits end in zero. -/
theorem notCorrupt_group {e : Core F} {before : List (Flit (Raw F))} {x : Flit (Raw F)}
    (h : Group e before x) :
    (before.foldl (fun e y => e.nextFragment y) e).notCorrupt x =
      (groupHash e.parityRX (before ++ [x]) == 0 && !x.softErr) := by
  induction before generalizing e with
  | nil =>
    have hlast : e.endsGroup = true := by
      have hlen := h.length
      rw [List.length_nil] at hlen
      exact (FrameCounter.isLast_iff (C := F.fragmentCounter) (by
        change e.fragmentNumberRX < F.interfaceWords
        omega)).mpr (by
        change e.fragmentNumberRX + 1 = F.interfaceWords
        omega)
    simp only [List.foldl_nil, List.nil_append, Core.notCorrupt, Core.hashRX, groupHash,
      List.foldl_cons, h.payload_last, hlast, if_true]
    simp
  | cons y before ih =>
    have hlen := h.length
    rw [List.length_cons] at hlen
    have hlast : e.endsGroup = false := by
      rw [Core.endsGroup, Bool.eq_false_iff, ne_eq, FrameCounter.isLast_iff (C := F.fragmentCounter)
        (by
          change e.fragmentNumberRX < F.interfaceWords
          omega)]
      change ¬e.fragmentNumberRX + 1 = F.interfaceWords
      omega
    have hpay := h.payload y (List.mem_cons_self ..)
    have hnumber : (e.nextFragment y).fragmentNumberRX = e.fragmentNumberRX + 1 := by
      rw [Core.nextFragment, hlast]
      exact FrameCounter.succ_eq (C := F.fragmentCounter) (by
        change e.fragmentNumberRX + 1 < F.interfaceWords
        omega)
    have hparity : (e.nextFragment y).parityRX = doHash e.parityRX (y.raw.setWidth 64) := by
      simp only [Core.nextFragment, hlast, Core.hashRX, hpay, if_true, Bool.false_eq_true, if_false]
    have hrest := ih (e := e.nextFragment y)
      ⟨by rw [hnumber]; omega, fun z hz => h.payload z (List.mem_cons_of_mem _ hz), h.payload_last⟩
    rw [List.foldl_cons, hrest, hparity]
    rfl

/-- **`doHash` is a cyclic redundancy check.** The loop has the guarantees on words of any length
from eight bits on, `doHash` has them on all words that it can take, and what the receiver checks
at the end of a group is the chain that they are about. -/
theorem doHash_isCrc (w : ℕ) (hw : 8 ≤ w) :
    IsCrc (fun init (data : BitVec w) => Crc.hash 0x183 init data) ∧
      (w ≤ 64 → IsCrc fun init (data : BitVec w) => doHash init (data.setWidth 64)) ∧
      ∀ (F : Format) (e : Core F) (before : List (Flit (Raw F))) (x : Flit (Raw F)),
        Group e before x →
          (before.foldl (fun e y => e.nextFragment y) e).notCorrupt x =
            (groupHash e.parityRX (before ++ [x]) == 0 && !x.softErr) :=
  ⟨isCrc_hash hw, fun h => isCrc_setWidth hw h (isCrc_hash (by decide)),
    fun _ _ _ _ => notCorrupt_group⟩

/-- One flit of sixteen bits, and one bit of it altered. -/
theorem doHash_isCrc_sixteen :
    IsCrc (fun init (data : BitVec 16) => doHash init (data.setWidth 64)) ∧
      doHash 0 ((0xa44a : BitVec 16).setWidth 64) = 0 ∧
      doHash 0 ((0xa44a ^^^ 0x0400 : BitVec 16).setWidth 64) ≠ 0 := by
  have hcrc := (doHash_isCrc 16 (by decide)).2.1 (by decide)
  have hpasses : doHash 0 ((0xa44a : BitVec 16).setWidth 64) = 0 := by decide +kernel
  have hburst : Crc.Burst (0x0400 : BitVec 16) := by
    have hbits : ∀ i : Fin 16, (0x0400 : BitVec 16).getLsbD i = true → 8 ≤ i.val := by decide
    refine ⟨8, fun i hi => ?_⟩
    have hlt := BitVec.lt_of_getLsbD hi
    exact ⟨hbits ⟨i, hlt⟩ hi, hlt⟩
  exact ⟨hcrc, hpasses, hcrc.burst 0 [0xa44a] [0x0400] rfl hpasses
    ⟨[], 0x0400, [], rfl, by simp, by simp, by decide, hburst⟩⟩

end Grouped

end Aurora

end LeapPlatforms
