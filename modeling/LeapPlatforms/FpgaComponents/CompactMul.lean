import LeapPlatforms.Foundation.OneAtATime
import Mathlib.Algebra.Order.Ring.Nat
import Mathlib.Data.BitVec
import Mathlib.Tactic.Ring
import Mathlib.Algebra.Order.Ring.Int

/-!
# Compact multipliers

The multipliers of `alu-support`. A pipeline multiplies numbers of half the width. The unsigned
multiplier puts four pairs of halves into it, one behind the other, and adds up what comes out: the
low halves, the high halves, and the two mixed pairs. The signed multiplier multiplies absolute
values and keeps the sign until the response.

The width of an operand is `h + h`, and the pipeline has `stages + 1` registers behind the product.

## Main definitions

* `PipelinedMul`, `PipelinedMul.clock`, `PipelinedMul.slot` — the pipeline, and what is in it
* `CompactUnsignedMul.cycle`, `CompactSignedMul.cycle` — the multipliers

## Main results

* `toNat_accumulate` — one partial product
* `unsigned_serves`, `signed_serves`
* `compactMul_exact`
-/

namespace LeapPlatforms

namespace FpgaComponents

open OneAtATime

variable {h : ℕ}

/-! ### The pipeline -/

/-- `unsignedMul`. -/
def unsignedMul (x y : BitVec h) : BitVec (h + h) := x.setWidth (h + h) * y.setWidth (h + h)

/-- `mkPipelinedUnsignedMul`; the registers `pipe` behind the last one of the pipeline are not
there. -/
structure PipelinedMul (h : ℕ) where
  /-- `input0`. -/
  input0 : BitVec h
  /-- `input1`. -/
  input1 : BitVec h
  /-- `inputValid`. -/
  inputValid : Bool
  /-- `buf0`. -/
  buf0 : BitVec h
  /-- `buf1`. -/
  buf1 : BitVec h
  /-- `bufValid`. -/
  bufValid : Bool
  /-- `pipe`. -/
  pipe : ℕ → BitVec (h + h)
  /-- `pipeValid`. -/
  pipeValid : ℕ → Bool

namespace PipelinedMul

/-- A clock, with what is written. -/
def clock (p : PipelinedMul h) (write : Option (BitVec h × BitVec h)) : PipelinedMul h where
  input0 := (write.map Prod.fst).getD p.input0
  input1 := (write.map Prod.snd).getD p.input1
  inputValid := write.isSome
  buf0 := p.input0
  buf1 := p.input1
  bufValid := p.inputValid
  pipe
    | 0 => unsignedMul p.buf0 p.buf1
    | s + 1 => p.pipe s
  pipeValid
    | 0 => p.bufValid
    | s + 1 => p.pipeValid s

/-- `read`. -/
def read (stages : ℕ) (p : PipelinedMul h) : Option (BitVec (h + h)) :=
  if p.pipeValid stages then some (p.pipe stages) else none

/-- Nothing is in the pipeline. -/
structure Reset (p : PipelinedMul h) : Prop where
  inputValid : p.inputValid = false
  bufValid : p.bufValid = false
  pipeValid : ∀ s, p.pipeValid s = false

/-- The product that was written some clocks ago. -/
def slot (p : PipelinedMul h) : ℕ → Option (BitVec (h + h))
  | 0 => if p.inputValid then some (unsignedMul p.input0 p.input1) else none
  | 1 => if p.bufValid then some (unsignedMul p.buf0 p.buf1) else none
  | s + 2 => if p.pipeValid s then some (p.pipe s) else none

variable (p : PipelinedMul h) (write : Option (BitVec h × BitVec h))

@[simp] theorem slot_clock_zero :
    (p.clock write).slot 0 = write.map fun x => unsignedMul x.1 x.2 := by
  cases write <;> rfl

@[simp] theorem slot_clock_succ (s : ℕ) : (p.clock write).slot (s + 1) = p.slot s := by
  rcases s with _ | _ | s
  · rfl
  · rfl
  · rfl

theorem read_eq (stages : ℕ) : p.read stages = p.slot (stages + 2) := rfl

theorem Reset.slot {p : PipelinedMul h} (hp : p.Reset) (s : ℕ) : p.slot s = none := by
  rcases s with _ | _ | s
  · rw [PipelinedMul.slot, hp.inputValid, if_neg (by decide)]
  · rw [PipelinedMul.slot, hp.bufValid, if_neg (by decide)]
  · rw [PipelinedMul.slot, hp.pipeValid, if_neg (by decide)]

end PipelinedMul

/-! ### The unsigned multiplier -/

/-- The lower half of an operand. -/
def lowHalf (x : BitVec (h + h)) : BitVec h := x.extractLsb' 0 h

/-- The upper half of an operand. -/
def highHalf (x : BitVec (h + h)) : BitVec h := x.extractLsb' h h

/-- The pair for a position: low and low, high and high, low and high, high and low. -/
def partialInput (inPos : BitVec 2) (arg0 arg1 : BitVec (h + h)) : BitVec h × BitVec h :=
  (if inPos.getLsbD 0 = true then highHalf arg0 else lowHalf arg0,
    if inPos.getLsbD 0 ≠ inPos.getLsbD 1 then highHalf arg1 else lowHalf arg1)

/-- What `drain` does with a partial product: the low half, the high half, or what is added to the
upper three quarters. -/
def accumulate (outPos : BitVec 2) (result : BitVec (h + h + (h + h))) (m : BitVec (h + h)) :
    BitVec (h + h + (h + h)) :=
  if outPos = 0 then result.extractLsb' (h + h) (h + h) ++ m
  else if outPos = 1 then m ++ result.extractLsb' 0 (h + h)
  else ((result.extractLsb' h (3 * h) + m.setWidth (3 * h)) ++ result.extractLsb' 0 h).setWidth
    (h + h + (h + h))

/-- `STATE_MUL`. -/
inductive StateMul
  | free
  | busy
  | done
  deriving DecidableEq

/-- `mkCompactUnsignedMul`. -/
structure CompactUnsignedMul (h : ℕ) where
  /-- `mult`. -/
  mult : PipelinedMul h
  /-- `state`. -/
  state : StateMul
  /-- `result`. -/
  result : BitVec (h + h + (h + h))
  /-- `outPos`. -/
  outPos : BitVec 2
  /-- `inPos`. -/
  inPos : BitVec 2
  /-- `x_arg0`. -/
  xArg0 : BitVec (h + h)
  /-- `x_arg1`. -/
  xArg1 : BitVec (h + h)

namespace CompactUnsignedMul

/-- `drain`, with what is read. -/
def drain (s : CompactUnsignedMul h) : Option (BitVec (h + h)) → CompactUnsignedMul h
  | some m =>
    { s with
      result := accumulate s.outPos s.result m
      state := if s.outPos = 3 then .done else s.state
      outPos := s.outPos + 1 }
  | none => s

/-- `pushPartialProducts`, and the clock of the pipeline. -/
def push (s : CompactUnsignedMul h) : CompactUnsignedMul h :=
  if s.inPos ≠ 0 then
    { s with
      mult := s.mult.clock (some (partialInput s.inPos s.xArg0 s.xArg1))
      inPos := s.inPos + 1 }
  else { s with mult := s.mult.clock none }

/-- `req`, and the clock of the pipeline. -/
def req (s : CompactUnsignedMul h) (arg : BitVec (h + h) × BitVec (h + h)) :
    CompactUnsignedMul h :=
  { s with
    xArg0 := arg.1
    xArg1 := arg.2
    mult := s.mult.clock (some (lowHalf arg.1, lowHalf arg.2))
    inPos := 1
    state := .busy
    result := 0 }

/-- A clock. -/
def cycle (stages : ℕ) (s : CompactUnsignedMul h)
    (request : Option (BitVec (h + h) × BitVec (h + h))) (resp : Bool) :
    Option (CompactUnsignedMul h × Option (BitVec (h + h + (h + h)))) :=
  match s.state with
  | .free =>
    if resp then none
    else match request with
      | some arg => some (s.req arg, none)
      | none => some ({ s with mult := s.mult.clock none }, none)
  | .busy =>
    if request.isSome ∨ resp = true then none
    else some (s.push.drain (s.mult.read stages), none)
  | .done =>
    if request.isSome then none
    else if resp then some ({ s with mult := s.mult.clock none, state := .free }, some s.result)
    else some ({ s with mult := s.mult.clock none }, none)

end CompactUnsignedMul

/-- The unsigned multiplier, with what its reset leaves of its registers. -/
def compactUnsignedMul (h stages : ℕ) :
    Server (BitVec (h + h) × BitVec (h + h)) (BitVec (h + h + (h + h))) where
  σ := CompactUnsignedMul h
  start s := s.mult.Reset ∧ s.state = .free ∧ s.outPos = 0 ∧ s.inPos = 0
  cycle := CompactUnsignedMul.cycle stages

/-! ### The signed multiplier -/

/-- `mkCompactSignedMul`. -/
structure CompactSignedMul (h : ℕ) where
  /-- `umul`. -/
  umul : CompactUnsignedMul h
  /-- `isNegative`. -/
  isNegative : Bool

namespace CompactSignedMul

/-- `abs_arg0` and `abs_arg1`. -/
def absArg (arg : BitVec (h + h)) : BitVec (h + h) := if arg.msb = false then arg else -arg

/-- The result is negative if exactly one operand is. -/
def negative (arg : BitVec (h + h) × BitVec (h + h)) : Bool := arg.1.msb ^^ arg.2.msb

/-- A clock. -/
def cycle (stages : ℕ) (s : CompactSignedMul h)
    (request : Option (BitVec (h + h) × BitVec (h + h))) (resp : Bool) :
    Option (CompactSignedMul h × Option (BitVec (h + h + (h + h)))) :=
  (s.umul.cycle stages (request.map fun arg => (absArg arg.1, absArg arg.2)) resp).map fun t =>
    ({ umul := t.1, isNegative := (request.map negative).getD s.isNegative },
      t.2.map fun m => if s.isNegative then -m else m)

end CompactSignedMul

/-- The signed multiplier. -/
def compactSignedMul (h stages : ℕ) :
    Server (BitVec (h + h) × BitVec (h + h)) (BitVec (h + h + (h + h))) where
  σ := CompactSignedMul h
  start s := (compactUnsignedMul h stages).start s.umul
  cycle := CompactSignedMul.cycle stages

/-! ### Arithmetic -/

theorem toNat_unsignedMul (x y : BitVec h) : (unsignedMul x y).toNat = x.toNat * y.toNat := by
  have hx := x.isLt
  have hy := y.isLt
  have hprod : x.toNat * y.toNat < 2 ^ (h + h) := by
    rw [Nat.pow_add]
    exact Nat.mul_lt_mul'' hx hy
  have hle : 2 ^ h ≤ 2 ^ (h + h) := Nat.pow_le_pow_right (by decide) (Nat.le_add_left h h)
  rw [unsignedMul, BitVec.toNat_mul, BitVec.toNat_setWidth, BitVec.toNat_setWidth,
    Nat.mod_eq_of_lt (hx.trans_le hle), Nat.mod_eq_of_lt (hy.trans_le hle), Nat.mod_eq_of_lt hprod]

theorem toNat_lowHalf (x : BitVec (h + h)) : (lowHalf x).toNat = x.toNat % 2 ^ h := by
  rw [lowHalf, BitVec.extractLsb'_toNat, Nat.shiftRight_zero]

theorem toNat_highHalf (x : BitVec (h + h)) : (highHalf x).toNat = x.toNat / 2 ^ h := by
  have hx := x.isLt
  rw [Nat.pow_add] at hx
  rw [highHalf, BitVec.extractLsb'_toNat, Nat.shiftRight_eq_div_pow,
    Nat.mod_eq_of_lt (Nat.div_lt_of_lt_mul hx)]

theorem toNat_append {v w : ℕ} (x : BitVec v) (y : BitVec w) :
    (x ++ y).toNat = x.toNat * 2 ^ w + y.toNat := by
  rw [BitVec.toNat_append, ← Nat.shiftLeft_add_eq_or_of_lt y.isLt, Nat.shiftLeft_eq]

section Sums

variable (arg0 arg1 : BitVec (h + h))

/-- A partial product. -/
def partialProduct (k : ℕ) : BitVec (h + h) :=
  unsignedMul (partialInput (BitVec.ofNat 2 k) arg0 arg1).1
    (partialInput (BitVec.ofNat 2 k) arg0 arg1).2

/-- Where a partial product is added. -/
def weight (h : ℕ) : ℕ → ℕ
  | 0 => 1
  | 1 => 2 ^ (h + h)
  | _ => 2 ^ h

/-- The first partial products. -/
def sums : ℕ → ℕ
  | 0 => 0
  | k + 1 => sums k + (partialProduct arg0 arg1 k).toNat * weight h k

theorem toNat_partialProduct_zero : (partialProduct arg0 arg1 0).toNat =
    arg0.toNat % 2 ^ h * (arg1.toNat % 2 ^ h) := by
  have hprod : partialProduct arg0 arg1 0 = unsignedMul (lowHalf arg0) (lowHalf arg1) := rfl
  rw [hprod, toNat_unsignedMul, toNat_lowHalf, toNat_lowHalf]

theorem toNat_partialProduct_one : (partialProduct arg0 arg1 1).toNat =
    arg0.toNat / 2 ^ h * (arg1.toNat / 2 ^ h) := by
  have hprod : partialProduct arg0 arg1 1 = unsignedMul (highHalf arg0) (highHalf arg1) := rfl
  rw [hprod, toNat_unsignedMul, toNat_highHalf, toNat_highHalf]

theorem toNat_partialProduct_two : (partialProduct arg0 arg1 2).toNat =
    arg0.toNat % 2 ^ h * (arg1.toNat / 2 ^ h) := by
  have hprod : partialProduct arg0 arg1 2 = unsignedMul (lowHalf arg0) (highHalf arg1) := rfl
  rw [hprod, toNat_unsignedMul, toNat_lowHalf, toNat_highHalf]

theorem toNat_partialProduct_three : (partialProduct arg0 arg1 3).toNat =
    arg0.toNat / 2 ^ h * (arg1.toNat % 2 ^ h) := by
  have hprod : partialProduct arg0 arg1 3 = unsignedMul (highHalf arg0) (lowHalf arg1) := rfl
  rw [hprod, toNat_unsignedMul, toNat_highHalf, toNat_lowHalf]

theorem sums_four : sums arg0 arg1 4 = arg0.toNat * arg1.toNat := by
  have h0 := Nat.div_add_mod arg0.toNat (2 ^ h)
  have h1 := Nat.div_add_mod arg1.toNat (2 ^ h)
  have hsums : sums arg0 arg1 4 = 0 + (partialProduct arg0 arg1 0).toNat * 1 +
      (partialProduct arg0 arg1 1).toNat * 2 ^ (h + h) +
      (partialProduct arg0 arg1 2).toNat * 2 ^ h + (partialProduct arg0 arg1 3).toNat * 2 ^ h := rfl
  rw [hsums, toNat_partialProduct_zero, toNat_partialProduct_one, toNat_partialProduct_two,
    toNat_partialProduct_three, Nat.pow_add]
  conv_rhs => rw [← h0, ← h1]
  ring

theorem sums_lt {k : ℕ} (hk : k ≤ 4) : sums arg0 arg1 k < 2 ^ (h + h + (h + h)) := by
  have hmono : Monotone (sums arg0 arg1) := monotone_nat_of_le_succ fun k => Nat.le_add_right _ _
  calc sums arg0 arg1 k ≤ sums arg0 arg1 4 := hmono hk
    _ = arg0.toNat * arg1.toNat := sums_four arg0 arg1
    _ < 2 ^ (h + h) * 2 ^ (h + h) := Nat.mul_lt_mul'' arg0.isLt arg1.isLt
    _ = 2 ^ (h + h + (h + h)) := (Nat.pow_add ..).symm

/-- What is added to the upper three quarters is added to the whole. -/
theorem toNat_accumulate_mixed {outPos : BitVec 2} (hzero : outPos ≠ 0) (hone : outPos ≠ 1)
    {result : BitVec (h + h + (h + h))} {m : BitVec (h + h)}
    (hlt : result.toNat + m.toNat * 2 ^ h < 2 ^ (h + h + (h + h))) :
    (accumulate outPos result m).toNat = result.toNat + m.toNat * 2 ^ h := by
  have hpos := Nat.two_pow_pos h
  have hpow : 2 ^ (h + h + (h + h)) = 2 ^ (3 * h) * 2 ^ h := by
    rw [← Nat.pow_add]
    congr 1
    omega
  have hm : m.toNat < 2 ^ (3 * h) :=
    m.isLt.trans_le (Nat.pow_le_pow_right (by decide) (by omega))
  have hquot : result.toNat / 2 ^ h < 2 ^ (3 * h) :=
    Nat.div_lt_of_lt_mul (by rw [Nat.mul_comm, ← hpow]; exact result.isLt)
  have hadd : (result.toNat + m.toNat * 2 ^ h) / 2 ^ h = result.toNat / 2 ^ h + m.toNat :=
    Nat.add_mul_div_right _ _ hpos
  have hsum : result.toNat / 2 ^ h + m.toNat < 2 ^ (3 * h) := by
    rw [← hadd]
    exact Nat.div_lt_of_lt_mul (by rw [Nat.mul_comm (2 ^ h) (2 ^ (3 * h)), ← hpow]; exact hlt)
  have hvalue : (result.toNat / 2 ^ h + m.toNat) * 2 ^ h + result.toNat % 2 ^ h =
      result.toNat + m.toNat * 2 ^ h := by
    have hdiv := Nat.div_add_mod' result.toNat (2 ^ h)
    rw [Nat.add_mul]
    omega
  rw [accumulate, if_neg hzero, if_neg hone, BitVec.toNat_setWidth, toNat_append,
    BitVec.toNat_add, BitVec.extractLsb'_toNat, BitVec.extractLsb'_toNat, BitVec.toNat_setWidth,
    Nat.shiftRight_eq_div_pow, Nat.shiftRight_zero, Nat.mod_eq_of_lt hm, Nat.mod_eq_of_lt hquot,
    Nat.mod_eq_of_lt hsum, hvalue, Nat.mod_eq_of_lt hlt]

/-- **A partial product** is added where it belongs. -/
theorem toNat_accumulate {k : ℕ} (hk : k < 4) {result : BitVec (h + h + (h + h))}
    (hresult : result.toNat = sums arg0 arg1 k) :
    (accumulate (BitVec.ofNat 2 k) result (partialProduct arg0 arg1 k)).toNat =
      sums arg0 arg1 (k + 1) := by
  have hlt := sums_lt arg0 arg1 (k := k + 1) (by omega)
  rw [sums, ← hresult] at hlt ⊢
  obtain rfl | rfl | rfl | rfl : k = 0 ∨ k = 1 ∨ k = 2 ∨ k = 3 := by omega
  · have hzero : result.toNat = 0 := hresult
    rw [accumulate, if_pos (by rfl), toNat_append, BitVec.extractLsb'_toNat, hzero,
      Nat.zero_shiftRight, Nat.zero_mod, Nat.zero_mul, weight, Nat.mul_one]
  · have hlow : result.toNat < 2 ^ (h + h) := by
      have hfirst : result.toNat = 0 + (partialProduct arg0 arg1 0).toNat * 1 := hresult
      have hbound := (partialProduct arg0 arg1 0).isLt
      omega
    rw [accumulate, if_neg (by decide), if_pos (by rfl), toNat_append, BitVec.extractLsb'_toNat,
      Nat.shiftRight_zero, Nat.mod_eq_of_lt hlow, weight, Nat.add_comm]
  · exact toNat_accumulate_mixed (by decide) (by decide) hlt
  · exact toNat_accumulate_mixed (by decide) (by decide) hlt

end Sums

/-! ### The phases of a multiplication -/

section Phases

variable (stages : ℕ)

/-- No product is in the pipeline. -/
def Empty (p : PipelinedMul h) : Prop := ∀ j ≤ stages + 2, p.slot j = none

/-- There is no request. -/
structure Free (s : CompactUnsignedMul h) : Prop where
  state : s.state = .free
  outPos : s.outPos = 0
  empty : Empty stages s.mult

/-- Some clocks ago there was a request. -/
structure Busy (arg : BitVec (h + h) × BitVec (h + h)) (c : ℕ) (s : CompactUnsignedMul h) :
    Prop where
  state : s.state = .busy
  xArg0 : s.xArg0 = arg.1
  xArg1 : s.xArg1 = arg.2
  pos : 0 < c
  le : c ≤ stages + 6
  /-- A pair is put into the pipeline in each of four clocks. -/
  inPos : s.inPos = BitVec.ofNat 2 (if c < 4 then c else 0)
  /-- The products are one behind the other. -/
  slot : ∀ j ≤ stages + 2, s.mult.slot j =
    if j < c ∧ c ≤ j + 4 then some (partialProduct arg.1 arg.2 (c - (j + 1))) else none
  /-- They are taken when they come. -/
  outPos : s.outPos = BitVec.ofNat 2 (c - (stages + 3))
  /-- What was taken was added. -/
  result : s.result.toNat = sums arg.1 arg.2 (c - (stages + 3))

/-- The product is there. -/
structure Done (arg : BitVec (h + h) × BitVec (h + h)) (s : CompactUnsignedMul h) : Prop where
  state : s.state = .done
  outPos : s.outPos = 0
  empty : Empty stages s.mult
  result : s.result.toNat = arg.1.toNat * arg.2.toNat

/-- The module with the request that it holds. -/
def Holding (s : CompactUnsignedMul h) : Option (BitVec (h + h) × BitVec (h + h)) → Prop
  | none => Free stages s
  | some arg => (∃ c, Busy stages arg c s) ∨ Done stages arg s

end Phases

section Clock

variable {stages : ℕ} {s : CompactUnsignedMul h} {arg : BitVec (h + h) × BitVec (h + h)}

theorem Empty.clock {p : PipelinedMul h} (hp : Empty stages p) : Empty stages (p.clock none) := by
  intro j hj
  cases j with
  | zero => rfl
  | succ j =>
    rw [PipelinedMul.slot_clock_succ]
    exact hp j (by omega)

/-- **A request** starts a multiplication. -/
theorem Free.req (hs : Free stages s) : Busy stages arg 1 (s.req arg) := by
  refine ⟨rfl, rfl, rfl, Nat.one_pos, by omega, rfl, fun j hj => ?_, ?_, ?_⟩
  · cases j with
    | zero => rfl
    | succ j =>
      rw [if_neg (by omega)]
      exact (PipelinedMul.slot_clock_succ ..).trans (hs.empty j (by omega))
  · rw [Nat.sub_eq_zero_of_le (by omega)]
    exact hs.outPos
  · rw [Nat.sub_eq_zero_of_le (by omega)]
    rfl

theorem state_push (s : CompactUnsignedMul h) : s.push.state = s.state := by
  rw [CompactUnsignedMul.push]
  split <;> rfl

theorem args_push (s : CompactUnsignedMul h) :
    s.push.xArg0 = s.xArg0 ∧ s.push.xArg1 = s.xArg1 := by
  rw [CompactUnsignedMul.push]
  split <;> exact ⟨rfl, rfl⟩

theorem out_push (s : CompactUnsignedMul h) :
    s.push.outPos = s.outPos ∧ s.push.result = s.result := by
  rw [CompactUnsignedMul.push]
  split <;> exact ⟨rfl, rfl⟩

/-- The products move on in the pipeline. -/
theorem Busy.slot_succ {c : ℕ} (hs : Busy stages arg c s) {j : ℕ} (hj : j + 1 ≤ stages + 2) :
    s.mult.slot j = if j + 1 < c + 1 ∧ c + 1 ≤ j + 1 + 4 then
      some (partialProduct arg.1 arg.2 (c + 1 - (j + 1 + 1))) else none := by
  have hiff : (j + 1 < c + 1 ∧ c + 1 ≤ j + 1 + 4) ↔ (j < c ∧ c ≤ j + 4) := by omega
  rw [hs.slot j (by omega), if_congr hiff rfl rfl, Nat.add_sub_add_right]

/-- What is written into the pipeline. -/
theorem Busy.push {c : ℕ} (hs : Busy stages arg c s) :
    s.push.inPos = BitVec.ofNat 2 (if c + 1 < 4 then c + 1 else 0) ∧
      ∀ j ≤ stages + 2, s.push.mult.slot j = if j < c + 1 ∧ c + 1 ≤ j + 4 then
        some (partialProduct arg.1 arg.2 (c + 1 - (j + 1))) else none := by
  have hpos := hs.pos
  by_cases hc : c < 4
  · have hin := hs.inPos
    rw [if_pos hc] at hin
    have hne : s.inPos ≠ 0 := by
      rw [hin]
      obtain rfl | rfl | rfl : c = 1 ∨ c = 2 ∨ c = 3 := by omega
      all_goals decide
    rw [CompactUnsignedMul.push, if_pos hne]
    refine ⟨?_, fun j hj => ?_⟩
    · show s.inPos + 1 = _
      rw [hin]
      obtain rfl | rfl | rfl : c = 1 ∨ c = 2 ∨ c = 3 := by omega
      all_goals rfl
    · cases j with
      | zero =>
        rw [if_pos (by omega), hin, hs.xArg0, hs.xArg1]
        rfl
      | succ j => exact (PipelinedMul.slot_clock_succ ..).trans (hs.slot_succ hj)
  · have hin := hs.inPos
    rw [if_neg hc] at hin
    rw [CompactUnsignedMul.push, if_neg (fun hne => hne hin)]
    refine ⟨?_, fun j hj => ?_⟩
    · rw [if_neg (by omega)]
      exact hin
    · cases j with
      | zero =>
        rw [if_neg (by omega)]
        rfl
      | succ j => exact (PipelinedMul.slot_clock_succ ..).trans (hs.slot_succ hj)

/-- **A clock** of a multiplication. -/
theorem Busy.clock {c : ℕ} (hs : Busy stages arg c s) :
    (c < stages + 6 ∧ Busy stages arg (c + 1) (s.push.drain (s.mult.read stages))) ∨
      (c = stages + 6 ∧ Done stages arg (s.push.drain (s.mult.read stages))) := by
  obtain ⟨hin, hslot⟩ := hs.push
  obtain ⟨harg0, harg1⟩ := args_push s
  obtain ⟨hout, hresult⟩ := out_push s
  have hpos := hs.pos
  have hle := hs.le
  have hread := hs.slot (stages + 2) le_rfl
  rw [← PipelinedMul.read_eq] at hread
  by_cases hfirst : c < stages + 3
  · -- nothing comes yet
    rw [if_neg (by omega)] at hread
    rw [hread]
    refine Or.inl ⟨by omega, (state_push s).trans hs.state, harg0.trans hs.xArg0,
      harg1.trans hs.xArg1, by omega, by omega, hin, hslot, ?_, ?_⟩
    · rw [Nat.sub_eq_zero_of_le (by omega)]
      refine hout.trans (hs.outPos.trans ?_)
      rw [Nat.sub_eq_zero_of_le (by omega)]
    · rw [Nat.sub_eq_zero_of_le (by omega)]
      refine (congrArg BitVec.toNat hresult).trans (hs.result.trans ?_)
      rw [Nat.sub_eq_zero_of_le (by omega)]
  · obtain ⟨k, rfl⟩ : ∃ k, c = stages + 3 + k := ⟨c - (stages + 3), by omega⟩
    have hk : stages + 3 + k - (stages + 3) = k := Nat.add_sub_cancel_left ..
    have hk' : stages + 3 + k + 1 - (stages + 3) = k + 1 := by omega
    have hwidth : stages + 3 + k - (stages + 2 + 1) = k := by omega
    rw [if_pos (by omega), hwidth] at hread
    rw [hread]
    have hsum : (accumulate s.push.outPos s.push.result (partialProduct arg.1 arg.2 k)).toNat =
        sums arg.1 arg.2 (k + 1) := by
      have hsofar := hs.result
      have hpos' := hs.outPos
      rw [hk] at hsofar hpos'
      rw [hout, hresult, hpos']
      exact toNat_accumulate arg.1 arg.2 (by omega) hsofar
    have houtPos := hs.outPos
    rw [hk] at houtPos
    by_cases hlast : k = 3
    · subst hlast
      refine Or.inr ⟨rfl, ?_, ?_, fun j hj => ?_, ?_⟩
      · exact if_pos (hout.trans houtPos)
      · show s.push.outPos + 1 = 0
        rw [hout, houtPos]
        rfl
      · exact (hslot j hj).trans (if_neg (by omega))
      · exact hsum.trans (sums_four arg.1 arg.2)
    · refine Or.inl ⟨by omega, ?_, harg0.trans hs.xArg0, harg1.trans hs.xArg1, by omega, by omega,
        hin, hslot, ?_, ?_⟩
      · have hne : s.push.outPos ≠ 3 := by
          rw [hout, houtPos]
          obtain rfl | rfl | rfl : k = 0 ∨ k = 1 ∨ k = 2 := by omega
          all_goals decide
        exact (if_neg hne).trans ((state_push s).trans hs.state)
      · show s.push.outPos + 1 = _
        rw [hout, houtPos, hk', BitVec.ofNat_add]
        rfl
      · rw [hk']
        exact hsum

/-- A clock of a multiplication in which no method is called. -/
theorem Busy.cycle {c : ℕ} (hs : Busy stages arg c s) :
    s.cycle stages none false = some (s.push.drain (s.mult.read stages), none) := by
  simp only [CompactUnsignedMul.cycle, hs.state]
  rfl

/-- **The product comes** if the module is left alone. -/
theorem Busy.idle {m c : ℕ} (hs : Busy stages arg c s) (hm : c + m = stages + 7) :
    ∃ t, (compactUnsignedMul h stages).idle m s = some t ∧ Done stages arg t := by
  induction m generalizing c s with
  | zero =>
    have hle := hs.le
    omega
  | succ m ih =>
    rw [Server.idle_succ (S := compactUnsignedMul h stages) hs.cycle]
    rcases hs.clock with ⟨_, hnext⟩ | ⟨hlast, hdone⟩
    · exact ih hnext (by omega)
    · obtain rfl : m = 0 := by omega
      exact ⟨_, rfl, hdone⟩

end Clock

/-- **The unsigned multiplier** holds one request at a time, and responds with the product. -/
theorem unsigned_serves (h stages : ℕ) :
    Serves (compactUnsignedMul h stages) (fun arg => unsignedMul arg.1 arg.2) (stages + 6)
      (Holding stages) where
  start s hs := ⟨hs.2.1, hs.2.2.1, fun j _ => hs.1.slot j⟩
  cycle s pending req resp t r hs hcycle := by
    have hcycle' : CompactUnsignedMul.cycle stages s req resp = some (t, r) := hcycle
    cases pending with
    | none =>
      have hfree : Free stages s := hs
      simp only [CompactUnsignedMul.cycle, hfree.state] at hcycle'
      cases resp with
      | true => cases hcycle'
      | false =>
        refine ⟨fun _ => rfl, fun hresp => (by cases hresp), ?_⟩
        cases req with
        | none =>
          obtain ⟨rfl, rfl⟩ := Prod.mk.inj (Option.some.inj hcycle')
          exact ⟨rfl, rfl, hfree.outPos, hfree.empty.clock⟩
        | some arg =>
          obtain ⟨rfl, rfl⟩ := Prod.mk.inj (Option.some.inj hcycle')
          exact ⟨rfl, Or.inl ⟨1, hfree.req⟩⟩
    | some arg =>
      rcases hs with ⟨c, hbusy⟩ | hdone
      · simp only [CompactUnsignedMul.cycle, hbusy.state] at hcycle'
        split at hcycle'
        · cases hcycle'
        · next hquiet =>
          obtain ⟨hreq, hresp⟩ := not_or.mp hquiet
          obtain ⟨rfl, rfl⟩ := Prod.mk.inj (Option.some.inj hcycle')
          refine ⟨fun hsome => absurd hsome hreq, fun htake => absurd htake hresp, ?_⟩
          rw [if_neg hresp, if_neg hresp]
          refine ⟨rfl, ?_⟩
          rcases hbusy.clock with ⟨_, hnext⟩ | ⟨_, hdone⟩
          · exact Or.inl ⟨c + 1, hnext⟩
          · exact Or.inr hdone
      · simp only [CompactUnsignedMul.cycle, hdone.state] at hcycle'
        cases req with
        | some x => cases hcycle'
        | none =>
          refine ⟨fun hsome => (by cases hsome), fun _ => rfl, ?_⟩
          cases resp with
          | false =>
            obtain ⟨rfl, rfl⟩ := Prod.mk.inj (Option.some.inj hcycle')
            exact ⟨rfl, Or.inr ⟨rfl, hdone.outPos, hdone.empty.clock, hdone.result⟩⟩
          | true =>
            obtain ⟨rfl, rfl⟩ := Prod.mk.inj (Option.some.inj hcycle')
            refine ⟨congrArg some ?_, rfl, hdone.outPos, hdone.empty.clock⟩
            refine BitVec.eq_of_toNat_eq ?_
            rw [toNat_unsignedMul]
            exact hdone.result
  free s arg hs := by
    have hfree : Free stages s := hs
    show (CompactUnsignedMul.cycle stages s (some arg) false).isSome = true
    simp only [CompactUnsignedMul.cycle, hfree.state]
    rfl
  ready s arg hs := by
    have htake : ∀ t, Done stages arg t →
        (CompactUnsignedMul.cycle stages t none true).isSome = true := by
      intro t ht
      simp only [CompactUnsignedMul.cycle, ht.state]
      rfl
    rcases hs with ⟨c, hbusy⟩ | hdone
    · have hpos := hbusy.pos
      have hle := hbusy.le
      obtain ⟨t, hidle, ht⟩ := hbusy.idle (m := stages + 7 - c) (by omega)
      exact ⟨stages + 7 - c, by omega, t, hidle, htake t ht⟩
    · exact ⟨0, Nat.zero_le _, s, rfl, htake s hdone⟩

/-! ### Signs -/

section Signs

/-- The absolute value, also of the most negative number. -/
theorem toNat_absArg (x : BitVec (h + h)) :
    (CompactSignedMul.absArg x).toNat = x.toInt.natAbs := by
  have hlt := x.isLt
  rw [CompactSignedMul.absArg, BitVec.toInt_eq_msb_cond]
  cases hmsb : x.msb with
  | false =>
    rw [if_pos rfl, if_neg (by decide), Int.natAbs_natCast]
  | true =>
    have hhalf := BitVec.msb_eq_decide x
    rw [hmsb, eq_comm, decide_eq_true_eq] at hhalf
    have hpos := Nat.two_pow_pos (h + h - 1)
    rw [if_neg (by decide), if_pos rfl, BitVec.toNat_neg, Nat.mod_eq_of_lt (by omega)]
    have hcast : ((2 ^ (h + h) : ℕ) : ℤ) = 2 ^ (h + h) := Int.natCast_pow 2 (h + h)
    omega

theorem four_mul_le (x y : BitVec (h + h)) :
    4 * (x.toInt.natAbs * y.toInt.natAbs) ≤ 2 ^ (h + h + (h + h)) := by
  have hbound : ∀ z : BitVec (h + h), 2 * z.toInt.natAbs ≤ 2 ^ (h + h) := by
    intro z
    have hlt := BitVec.two_mul_toInt_lt (x := z)
    have hle := BitVec.le_two_mul_toInt (x := z)
    have hcast : ((2 ^ (h + h) : ℕ) : ℤ) = 2 ^ (h + h) := Int.natCast_pow 2 (h + h)
    omega
  have hmul := Nat.mul_le_mul (hbound x) (hbound y)
  rw [← Nat.pow_add] at hmul
  have hfour : 2 * x.toInt.natAbs * (2 * y.toInt.natAbs) =
      4 * (x.toInt.natAbs * y.toInt.natAbs) := by ring
  rw [hfour] at hmul
  exact hmul

/-- What the signed multiplier responds with. -/
def signedProduct (arg : BitVec (h + h) × BitVec (h + h)) : BitVec (h + h + (h + h)) :=
  let m := unsignedMul (CompactSignedMul.absArg arg.1) (CompactSignedMul.absArg arg.2)
  if CompactSignedMul.negative arg then -m else m

/-- **The sign** of the product of absolute values is put right. -/
theorem toInt_signedProduct (arg : BitVec (h + h) × BitVec (h + h)) :
    (signedProduct arg).toInt = arg.1.toInt * arg.2.toInt := by
  have hfour := four_mul_le arg.1 arg.2
  have hpos := Nat.two_pow_pos (h + h + (h + h))
  have habs : (unsignedMul (CompactSignedMul.absArg arg.1) (CompactSignedMul.absArg arg.2)).toNat =
      arg.1.toInt.natAbs * arg.2.toInt.natAbs := by
    rw [toNat_unsignedMul, toNat_absArg, toNat_absArg]
  have hint : (unsignedMul (CompactSignedMul.absArg arg.1) (CompactSignedMul.absArg arg.2)).toInt =
      |arg.1.toInt| * |arg.2.toInt| := by
    rw [BitVec.toInt_eq_toNat_of_lt (by omega), habs, Int.natCast_mul, Int.natCast_natAbs,
      Int.natCast_natAbs]
  have hneg : (-unsignedMul (CompactSignedMul.absArg arg.1)
      (CompactSignedMul.absArg arg.2)).toInt = -(|arg.1.toInt| * |arg.2.toInt|) := by
    have hcast : ((arg.1.toInt.natAbs * arg.2.toInt.natAbs : ℕ) : ℤ) =
        |arg.1.toInt| * |arg.2.toInt| := by
      rw [Int.natCast_mul, Int.natCast_natAbs, Int.natCast_natAbs]
    rw [BitVec.toInt_neg, hint, ← hcast]
    exact Int.bmod_eq_of_le_mul_two (by omega) (by omega)
  rw [signedProduct, CompactSignedMul.negative, BitVec.msb_eq_toInt, BitVec.msb_eq_toInt]
  rcases lt_or_ge arg.1.toInt 0 with h0 | h0 <;> rcases lt_or_ge arg.2.toInt 0 with h1 | h1
  · rw [decide_eq_true h0, decide_eq_true h1]
    refine hint.trans ?_
    rw [abs_of_neg h0, abs_of_neg h1, neg_mul_neg]
  · rw [decide_eq_true h0, decide_eq_false h1.not_gt]
    refine hneg.trans ?_
    rw [abs_of_neg h0, abs_of_nonneg h1, neg_mul, neg_neg]
  · rw [decide_eq_false h0.not_gt, decide_eq_true h1]
    refine hneg.trans ?_
    rw [abs_of_nonneg h0, abs_of_neg h1, mul_neg, neg_neg]
  · rw [decide_eq_false h0.not_gt, decide_eq_false h1.not_gt]
    refine hint.trans ?_
    rw [abs_of_nonneg h0, abs_of_nonneg h1]

end Signs

/-- The signed multiplier with the request that it holds. -/
def SignedHolding (stages : ℕ) (s : CompactSignedMul h)
    (pending : Option (BitVec (h + h) × BitVec (h + h))) : Prop :=
  Holding stages s.umul (pending.map fun arg =>
    (CompactSignedMul.absArg arg.1, CompactSignedMul.absArg arg.2)) ∧
  ∀ arg, pending = some arg → s.isNegative = CompactSignedMul.negative arg

/-- The sign stays while nothing is called. -/
theorem idle_signed {stages k : ℕ} {u t : CompactUnsignedMul h} (isNegative : Bool)
    (hidle : (compactUnsignedMul h stages).idle k u = some t) :
    (compactSignedMul h stages).idle k { umul := u, isNegative := isNegative } =
      some { umul := t, isNegative := isNegative } := by
  induction k generalizing u with
  | zero =>
    obtain rfl := Option.some.inj hidle
    rfl
  | succ k ih =>
    obtain ⟨x, hcycle, hrest⟩ := Option.bind_eq_some_iff.mp hidle
    have hcycle' : (compactSignedMul h stages).cycle
        { umul := u, isNegative := isNegative } none false =
        some ({ umul := x.1, isNegative := isNegative },
          x.2.map fun m => if isNegative then -m else m) :=
      congrArg (Option.map _) hcycle
    rw [Server.idle_succ hcycle']
    exact ih hrest

/-- **The signed multiplier** holds one request at a time, and responds with the product. -/
theorem signed_serves (h stages : ℕ) :
    Serves (compactSignedMul h stages) signedProduct (stages + 6) (SignedHolding stages) where
  start s hs := ⟨(unsigned_serves h stages).start s.umul hs, fun arg harg => (by cases harg)⟩
  cycle s pending req resp t r hs hcycle := by
    obtain ⟨u, hu, hpair⟩ := Option.map_eq_some_iff.mp hcycle
    obtain ⟨rfl, rfl⟩ := Prod.mk.inj hpair
    obtain ⟨hreq, hresp, hr, hnext⟩ :=
      (unsigned_serves h stages).cycle s.umul _ _ resp u.1 u.2 hs.1 hu
    rw [Option.isSome_map, Option.map_eq_none_iff] at hreq
    rw [Option.isSome_map] at hresp
    refine ⟨hreq, hresp, ?_, ?_, fun arg harg => ?_⟩
    · rw [hr]
      cases resp with
      | false => rfl
      | true =>
        cases hpending : pending with
        | none => rfl
        | some arg =>
          show some (if s.isNegative then _ else _) = some (signedProduct arg)
          rw [hs.2 arg hpending]
          rfl
    · cases resp with
      | true => exact hnext
      | false =>
        rw [if_neg (by decide), ← Option.map_or] at hnext
        exact hnext
    · cases resp with
      | true => cases harg
      | false =>
        have hor : pending.or req = some arg := harg
        cases hpending : pending with
        | none =>
          rw [hpending, Option.none_or] at hor
          rw [hor]
          rfl
        | some x =>
          rw [hpending, Option.some_or] at hor
          have hnone : req = none := by
            cases hreqCase : req with
            | none => rfl
            | some y =>
              have hcontra := hreq (by rw [hreqCase]; rfl)
              rw [hpending] at hcontra
              cases hcontra
          rw [hnone]
          exact hs.2 arg (hpending.trans hor)
  free s arg hs := by
    have hfree := (unsigned_serves h stages).free s.umul
      (CompactSignedMul.absArg arg.1, CompactSignedMul.absArg arg.2) hs.1
    exact Option.isSome_map.trans hfree
  ready s arg hs := by
    obtain ⟨k, hk, t, hidle, htake⟩ := (unsigned_serves h stages).ready s.umul _ hs.1
    exact ⟨k, hk, _, idle_signed s.isNegative hidle, Option.isSome_map.trans htake⟩

/-- **The compact multipliers** compute the exact product. In every run, whenever requests are made
and responses are taken, each response of the unsigned multiplier is the product of its operands,
and each response of the signed one is the product of its operands as signed numbers; and there is
one response to each request, which comes within `stages + 6` clocks. -/
theorem compactMul_exact (h stages : ℕ) :
    (∀ s, (serving (compactUnsignedMul h stages)).Reachable s →
      s.Behaves (fun arg r => r.toNat = arg.1.toNat * arg.2.toNat) (stages + 6)) ∧
    ∀ s, (serving (compactSignedMul h stages)).Reachable s →
      s.Behaves (fun arg r => r.toInt = arg.1.toInt * arg.2.toInt) (stages + 6) :=
  ⟨fun _ hs => (unsigned_serves h stages).behaves (fun _ => toNat_unsignedMul _ _) hs,
    fun _ hs => (signed_serves h stages).behaves toInt_signedProduct hs⟩

/-- A multiplier of four-bit numbers after a reset. -/
def fourBits : CompactUnsignedMul 2 where
  mult :=
    { input0 := 0, input1 := 0, inputValid := false, buf0 := 0, buf1 := 0, bufValid := false
      pipe := fun _ => 0, pipeValid := fun _ => false }
  state := .free
  result := 0
  outPos := 0
  inPos := 0
  xArg0 := 0
  xArg1 := 0

theorem compactMul_exact_fourBits :
    (∃ s : Serving (compactUnsignedMul 2 0), s.asked = [(13, 11)] ∧ s.answered = [143] ∧
      s.Behaves (fun arg r => r.toNat = arg.1.toNat * arg.2.toNat) 6) ∧
    ∃ s : Serving (compactSignedMul 2 0), s.asked = [(-8, -8)] ∧ s.answered = [64] ∧
      s.Behaves (fun arg r => r.toInt = arg.1.toInt * arg.2.toInt) 6 := by
  have hreset : fourBits.mult.Reset ∧ fourBits.state = .free ∧ fourBits.outPos = 0 ∧
      fourBits.inPos = 0 := ⟨⟨rfl, rfl, fun _ => rfl⟩, rfl, rfl, rfl⟩
  constructor
  · have h₀ : (serving (compactUnsignedMul 2 0)).Reachable
        { state := fourBits, asked := [], answered := [] } := .init ⟨hreset, rfl, rfl⟩
    have h₁ := h₀.step (serving_step (some (13, 11)) false rfl)
    have h₄ := ((h₁.step (serving_step none false rfl)).step (serving_step none false rfl)).step
      (serving_step none false rfl)
    have h₇ := ((h₄.step (serving_step none false rfl)).step (serving_step none false rfl)).step
      (serving_step none false rfl)
    have h₈ := h₇.step (serving_step none true rfl)
    exact ⟨_, rfl, rfl, (compactMul_exact 2 0).1 _ h₈⟩
  · have h₀ : (serving (compactSignedMul 2 0)).Reachable
        { state := ⟨fourBits, false⟩, asked := [], answered := [] } := .init ⟨hreset, rfl, rfl⟩
    have h₁ := h₀.step (serving_step (some (-8, -8)) false rfl)
    have h₄ := ((h₁.step (serving_step none false rfl)).step (serving_step none false rfl)).step
      (serving_step none false rfl)
    have h₇ := ((h₄.step (serving_step none false rfl)).step (serving_step none false rfl)).step
      (serving_step none false rfl)
    have h₈ := h₇.step (serving_step none true rfl)
    exact ⟨_, rfl, rfl, (compactMul_exact 2 0).2 _ h₈⟩

end FpgaComponents

end LeapPlatforms
