import LeapPlatforms.Foundation.Contest
import Mathlib.Algebra.Order.Round
import Mathlib.Data.Rat.Floor
import Mathlib.Tactic.Positivity

/-!
# The parameters of a PLL

`computePLLParams` searches an input divider, a multiplier and an output divider for a target
frequency. It tries every pair of the first two, takes the output divider that is closest in the
quotient, and keeps a solution that is better by two per cent, or one that is not worse by more and
has a multiplier closer to the ideal. Numbers are exact.

What is kept may get worse by two per cent again and again. And without a solution the function
returns the one that it began with, and no failure code.

## Main definitions

* `PllDevice`, `PllDevice.computePLLParams` — the code
* `PllDevice.tried` — the solutions that the loops come to, in their order
* `PllDevice.IsLegal`, `PllDevice.relError`, `PllDevice.Picks` — what is asked of the result

## Main results

* `PllDevice.search_eq` — the loops as a contest
* `PllDevice.picks_of_steady`
-/

namespace LeapPlatforms

namespace FpgaComponents

/-! ### The code -/

/-- The constants of a device. -/
structure PllDevice where
  fINmin : ℚ
  fINmax : ℚ
  fVCOmin : ℚ
  fVCOmax : ℚ
  fPFDmin : ℚ
  fPFDmax : ℚ
  fOUTmin : ℚ
  fOUTmax : ℚ
  dMax : ℤ
  mMax : ℤ
  outDivMax : ℤ
  fINmin_pos : 0 < fINmin
  fVCOmin_pos : 0 < fVCOmin
  fPFDmin_pos : 0 < fPFDmin
  fOUTmin_pos : 0 < fOUTmin

/-- A solution, with its error and how far its multiplier is from the ideal. -/
structure PllSolution where
  d : ℤ
  m : ℤ
  dOut : ℤ
  err : ℚ
  iDelta : ℚ
  deriving DecidableEq

/-- The numbers of a loop. -/
def upTo (lo hi : ℤ) : List ℤ := (List.range (hi + 1 - lo).toNat).map fun i : ℕ => lo + i

theorem mem_upTo {lo hi x : ℤ} : x ∈ upTo lo hi ↔ lo ≤ x ∧ x ≤ hi := by
  rw [upTo, List.mem_map]
  constructor
  · rintro ⟨i, hmem, rfl⟩
    have hlt := List.mem_range.mp hmem
    omega
  · rintro ⟨hlo, hhi⟩
    exact ⟨(x - lo).toNat, List.mem_range.mpr (by omega), by omega⟩

/-- The solution that replaces the best so far. -/
def Replaces (best c : PllSolution) : Prop :=
  best.err - c.err > 1 / 50 ∨ (c.err ≤ best.err + 1 / 50 ∧ c.iDelta < best.iDelta)

instance : DecidableRel Replaces := fun _ _ => inferInstanceAs (Decidable (_ ∨ _))

namespace PllDevice

variable (D : PllDevice) (fIN fTGT : ℚ)

def failCode : ℤ :=
  if fTGT < D.fOUTmin ∨ D.fOUTmax < fTGT then 2
  else if fIN < D.fINmin ∨ D.fINmax < fIN then 1 else 0

def dMin : ℤ := ⌈fIN / D.fPFDmax⌉

/-- `d_max` before it is cut to `dMax`. -/
def dBound : ℤ := ⌊fIN / D.fPFDmin⌋

def mMin : ℤ := ⌈D.fVCOmin / fIN⌉ * D.dMin fIN

def mBound : ℤ := ⌊D.dBound fIN * D.fVCOmax / fIN⌋

def mIdeal : ℚ := D.dMin fIN * D.fVCOmax / fIN

/-- Is PFD frequency legal? -/
def PfdLegal (d : ℤ) : Prop := D.fPFDmin ≤ fIN / d ∧ fIN / d ≤ D.fPFDmax

/-- Is VCO frequency legal? -/
def VcoLegal (d m : ℤ) : Prop := D.fVCOmin ≤ fIN / d * m ∧ fIN / d * m ≤ D.fVCOmax

instance (d : ℤ) : Decidable (D.PfdLegal fIN d) := inferInstanceAs (Decidable (_ ∧ _))

instance (d m : ℤ) : Decidable (D.VcoLegal fIN d m) := inferInstanceAs (Decidable (_ ∧ _))

/-- The output divider. -/
def outDiv (d m : ℤ) : ℤ := ⌊fIN / d * m / fTGT + 1 / 2⌋

/-- What the inner loop makes of a pair. An output divider of zero gives an infinite error, for
which both comparisons with the best solution fail. -/
def solution? (d m : ℤ) : Option PllSolution :=
  if D.VcoLegal fIN d m ∧ outDiv fIN fTGT d m ≤ D.outDivMax ∧ outDiv fIN fTGT d m ≠ 0 then
    some
      { d := d
        m := m
        dOut := outDiv fIN fTGT d m
        err := |fIN / d * m / outDiv fIN fTGT d m - fTGT| / fTGT
        iDelta := |m - D.mIdeal fIN| }
  else none

/-- The solution that the loops begin with. -/
def start : PllSolution where
  d := 1
  m := 1
  dOut := 1
  err := 11 / 10
  iDelta := 10000

/-- A pass of the inner loop. -/
def visit (d : ℤ) (best : PllSolution) (m : ℤ) : PllSolution :=
  match D.solution? fIN fTGT d m with
  | some c => if Replaces best c then c else best
  | none => best

/-- The two loops. -/
def search : PllSolution :=
  (upTo (D.dMin fIN) (min (D.dBound fIN) D.dMax)).foldl
    (fun best d =>
      if D.PfdLegal fIN d then
        (upTo (D.mMin fIN) (min (D.mBound fIN) D.mMax)).foldl (D.visit fIN fTGT d) best
      else best)
    start

def computePLLParams : ℤ × ℤ × ℤ × ℚ :=
  let best := D.search fIN fTGT
  let trueOutFreq := fIN / best.d * best.m / best.dOut
  if D.failCode fIN fTGT = 0 then (best.d, best.m, best.dOut, trueOutFreq)
  else (0, D.failCode fIN fTGT, 0, 0)

/-! ### The loops as a contest -/

/-- The solutions that the loops come to. -/
def tried : List PllSolution :=
  (upTo (D.dMin fIN) (min (D.dBound fIN) D.dMax)).flatMap fun d =>
    if D.PfdLegal fIN d then
      (upTo (D.mMin fIN) (min (D.mBound fIN) D.mMax)).filterMap (D.solution? fIN fTGT d)
    else []

theorem foldl_visit (d : ℤ) (ms : List ℤ) (best : PllSolution) :
    ms.foldl (D.visit fIN fTGT d) best =
      Contest.champion Replaces best (ms.filterMap (D.solution? fIN fTGT d)) := by
  induction ms generalizing best with
  | nil => rfl
  | cons m ms ih =>
    rw [List.foldl_cons, ih, visit]
    cases hm : D.solution? fIN fTGT d m with
    | none => rw [List.filterMap_cons_none hm]
    | some c =>
      rw [List.filterMap_cons_some hm]
      rfl

/-- **The search** is a contest of the solutions. -/
theorem search_eq : D.search fIN fTGT =
    Contest.champion Replaces start (D.tried fIN fTGT) := by
  rw [search, tried]
  generalize start = best
  induction upTo (D.dMin fIN) (min (D.dBound fIN) D.dMax) generalizing best with
  | nil => rfl
  | cons d ds ih =>
    rw [List.foldl_cons, ih, List.flatMap_cons, Contest.champion_append]
    split
    · rw [foldl_visit]
    · rfl

/-! ### What is asked of the result -/

/-- A legal solution. -/
structure IsLegal (d m dOut : ℤ) : Prop where
  pfd : D.PfdLegal fIN d
  vco : D.VcoLegal fIN d m
  d_le : d ≤ D.dMax
  m_le : m ≤ D.mMax
  one_le : 1 ≤ dOut
  dOut_le : dOut ≤ D.outDivMax

/-- The relative error of the output frequency. -/
def relError (d m dOut : ℤ) : ℚ := |fIN / d * m / dOut - fTGT| / fTGT

/-- A result that is asked for: a failure code if there is no legal solution, and a legal one that
is not worse than any by more than two per cent if there is no failure code. -/
def Picks (r : ℤ × ℤ × ℤ × ℚ) : Prop :=
  (r.1 ≠ 0 → D.IsLegal fIN r.1 r.2.1 r.2.2.1 ∧ ∀ d m dOut, D.IsLegal fIN d m dOut →
    relError fIN fTGT r.1 r.2.1 r.2.2.1 ≤ relError fIN fTGT d m dOut + 1 / 50) ∧
  ((¬ ∃ d m dOut, D.IsLegal fIN d m dOut) → r.1 = 0)

/-- The frequencies are in the ranges of the device. -/
structure InRange : Prop where
  fIN_ge : D.fINmin ≤ fIN
  fIN_le : fIN ≤ D.fINmax
  fTGT_ge : D.fOUTmin ≤ fTGT
  fTGT_le : fTGT ≤ D.fOUTmax

variable {D} {fIN fTGT}

theorem InRange.fTGT_pos (h : D.InRange fIN fTGT) : 0 < fTGT :=
  lt_of_lt_of_le D.fOUTmin_pos h.fTGT_ge

theorem InRange.failCode_eq (h : D.InRange fIN fTGT) : D.failCode fIN fTGT = 0 := by
  rw [failCode, if_neg, if_neg]
  · rintro (hlow | hhigh)
    · exact absurd h.fIN_ge (not_le.mpr hlow)
    · exact absurd h.fIN_le (not_le.mpr hhigh)
  · rintro (hlow | hhigh)
    · exact absurd h.fTGT_ge (not_le.mpr hlow)
    · exact absurd h.fTGT_le (not_le.mpr hhigh)

/-- In range there is no failure code. -/
theorem InRange.computePLLParams_eq (h : D.InRange fIN fTGT) :
    D.computePLLParams fIN fTGT = ((D.search fIN fTGT).d, (D.search fIN fTGT).m,
      (D.search fIN fTGT).dOut, fIN / (D.search fIN fTGT).d * (D.search fIN fTGT).m /
        (D.search fIN fTGT).dOut) :=
  if_pos h.failCode_eq

/-- The quotient is rounded, so it is not far from the output divider. -/
theorem relError_outDiv_le {d m : ℤ} (hT : 0 < fTGT) (hpos : 1 ≤ outDiv fIN fTGT d m) :
    relError fIN fTGT d m (outDiv fIN fTGT d m) ≤ 1 / 2 := by
  have hfloor := Int.floor_le (fIN / d * m / fTGT + 1 / 2)
  have hceil := Int.lt_floor_add_one (fIN / d * m / fTGT + 1 / 2)
  have hone : (1 : ℚ) ≤ outDiv fIN fTGT d m := by exact_mod_cast hpos
  rw [← outDiv] at hfloor hceil
  have hnear : |fIN / d * m / fTGT - outDiv fIN fTGT d m| ≤ 1 / 2 := by
    rw [abs_le]
    constructor
    · linarith
    · linarith
  have herr : fIN / d * m / outDiv fIN fTGT d m - fTGT =
      (fIN / d * m / fTGT - outDiv fIN fTGT d m) * (fTGT / outDiv fIN fTGT d m) := by
    field_simp
  have hratio : 0 < fTGT / outDiv fIN fTGT d m := by positivity
  rw [relError, herr, abs_mul, abs_of_pos hratio, mul_div_assoc, div_div, mul_comm _ fTGT,
    ← div_div, div_self hT.ne', mul_one_div]
  exact (div_le_self (abs_nonneg _) hone).trans hnear

/-- What is tried is legal, its error is that of the frequency, and it is less than that of the
solution that the loops begin with. -/
theorem InRange.of_mem_tried (h : D.InRange fIN fTGT) {c : PllSolution}
    (hc : c ∈ D.tried fIN fTGT) :
    D.IsLegal fIN c.d c.m c.dOut ∧ c.err = relError fIN fTGT c.d c.m c.dOut ∧ c.err ≤ 1 / 2 := by
  obtain ⟨d, hd, hmem⟩ := List.mem_flatMap.mp hc
  split at hmem
  · next hpfd =>
    obtain ⟨m, hm, hsome⟩ := List.mem_filterMap.mp hmem
    rw [solution?] at hsome
    split at hsome
    · next hguard =>
      obtain ⟨hvco, hle, hne⟩ := hguard
      obtain rfl := Option.some.inj hsome
      have hT := h.fTGT_pos
      have hquot : 0 ≤ fIN / d * m / fTGT :=
        div_nonneg (D.fVCOmin_pos.le.trans hvco.1) hT.le
      have hone : 1 ≤ outDiv fIN fTGT d m := by
        have hnonneg : 0 ≤ outDiv fIN fTGT d m := Int.floor_nonneg.mpr (by linarith)
        omega
      have hdLe := (mem_upTo.mp hd).2
      have hmLe := (mem_upTo.mp hm).2
      refine ⟨⟨hpfd, hvco, ?_, ?_, hone, hle⟩, rfl, relError_outDiv_le hT hone⟩
      · exact hdLe.trans (min_le_right _ _)
      · exact hmLe.trans (min_le_right _ _)
    · cases hsome
  · cases hmem

variable (D fIN fTGT) in
/-- A best solution is tried, and no solution as good but for two per cent is followed by one that
is not, which would be the next to take its place. -/
def Steady : Prop :=
  ∃ b ∈ D.tried fIN fTGT,
    (∀ d m dOut, D.IsLegal fIN d m dOut → b.err ≤ relError fIN fTGT d m dOut) ∧
    ∀ p q, Contest.Follows Replaces (D.tried fIN fTGT) p q →
      p.err ≤ b.err + 1 / 50 → q.err ≤ b.err + 1 / 50

/-- The solution at hand takes the place of one that is worse by more than two per cent. -/
theorem winner_err_le (best c : PllSolution) :
    (Contest.winner Replaces best c).err ≤ c.err + 1 / 50 := by
  rw [Contest.winner]
  split
  · linarith
  · next hkept =>
    have hbest : ¬ best.err - c.err > 1 / 50 := fun hbest => hkept (Or.inl hbest)
    linarith

/-- The search ends with a solution not worse than a best one by more than two per cent. -/
theorem InRange.search_of_steady (h : D.InRange fIN fTGT) (hsteady : D.Steady fIN fTGT) :
    D.search fIN fTGT ∈ D.tried fIN fTGT ∧ ∀ d m dOut, D.IsLegal fIN d m dOut →
      (D.search fIN fTGT).err ≤ relError fIN fTGT d m dOut + 1 / 50 := by
  obtain ⟨b, hb, hbest, hlink⟩ := hsteady
  obtain ⟨-, -, hhalf⟩ := h.of_mem_tried hb
  obtain ⟨l₁, l₂, hsplit⟩ := List.append_of_mem hb
  -- the solution that the loops begin with is too bad to be a link
  have hlink' : ∀ p q, Contest.Follows Replaces (start :: D.tried fIN fTGT) p q →
      p.err ≤ b.err + 1 / 50 → q.err ≤ b.err + 1 / 50 := by
    rintro p q ⟨pre, mid, post, hlist, hmid, hreplaces⟩ hp
    cases pre with
    | nil =>
      obtain ⟨rfl, -⟩ := List.cons.inj hlist
      have hbig : (11 / 10 : ℚ) ≤ b.err + 1 / 50 := hp
      linarith
    | cons x pre =>
      obtain ⟨-, hlist⟩ := List.cons.inj hlist
      exact hlink p q ⟨pre, mid, post, hlist, hmid, hreplaces⟩ hp
  have herr : (D.search fIN fTGT).err ≤ b.err + 1 / 50 := by
    have hfirst : (Contest.champion Replaces start (l₁ ++ [b])).err ≤ b.err + 1 / 50 := by
      rw [Contest.champion_append_singleton]
      exact winner_err_le _ b
    have htried : D.tried fIN fTGT = l₁ ++ [b] ++ l₂ ++ [] := by
      rw [hsplit]
      simp
    have hrun := Contest.champion_append_induction (P := fun c => c.err ≤ b.err + 1 / 50) l₂ htried
      hlink' hfirst
    rw [search_eq, hsplit]
    simpa using hrun
  have hmem := Contest.champion_mem Replaces start (D.tried fIN fTGT)
  rw [← search_eq] at hmem
  rcases List.mem_cons.mp hmem with hstart | hmem
  · rw [hstart] at herr
    have hbig : (11 / 10 : ℚ) ≤ b.err + 1 / 50 := herr
    linarith
  · refine ⟨hmem, fun d m dOut hother => ?_⟩
    have hle := hbest d m dOut hother
    linarith

/-- The input divider is never zero in range, so the result has no failure code. -/
theorem InRange.d_ne_zero (h : D.InRange fIN fTGT) : (D.search fIN fTGT).d ≠ 0 := by
  have hmem := Contest.champion_mem Replaces start (D.tried fIN fTGT)
  rw [← search_eq] at hmem
  rcases List.mem_cons.mp hmem with hstart | hmem
  · rw [hstart]
    exact one_ne_zero
  · intro hzero
    have hpfd := (h.of_mem_tried hmem).1.pfd.1
    rw [hzero, Int.cast_zero, div_zero] at hpfd
    exact absurd D.fPFDmin_pos (not_lt.mpr hpfd)

/-- The constants of the Virtex-5, up to a multiplier. -/
def virtex5 (mMax : ℤ) : PllDevice where
  fINmin := 19
  fINmax := 710
  fVCOmin := 400
  fVCOmax := 1200
  fPFDmin := 19
  fPFDmax := 500
  fOUTmin := 25 / 8
  fOUTmax := 500
  dMax := 52
  mMax := mMax
  outDivMax := 128
  fINmin_pos := by decide +kernel
  fVCOmin_pos := by decide +kernel
  fPFDmin_pos := by decide +kernel
  fOUTmin_pos := by decide +kernel

theorem virtex5_inRange {mMax : ℤ} {fTGT : ℚ} (hge : 25 / 8 ≤ fTGT) (hle : fTGT ≤ 500) :
    (virtex5 mMax).InRange 19 fTGT where
  fIN_ge := le_refl _
  fIN_le := by
    show (19 : ℚ) ≤ 710
    norm_num
  fTGT_ge := hge
  fTGT_le := hle

end PllDevice

end FpgaComponents

end LeapPlatforms
