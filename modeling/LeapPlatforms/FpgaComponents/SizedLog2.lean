import LeapPlatforms.FpgaComponents.GuardedBram

/-!
# Memories halved again and again

`mkBRAMSizedLog2` builds a memory of a size that is not a power of two: a RAM for the lower half of
the address space if the top bit of the size is one, and the same again for what is left. The size
goes to it in as many bits as an address has, so that `2 ^ n` becomes zero.

Where the source leaves an interface undefined there is no memory: its methods do nothing, hold
nobody up, and what they return is anything.

## Main definitions

* `FullRam`, `Log2Ram`, `Log2Ram.helper`, `Log2Ram.cycle` — the module
* `Log2Ram.Holds` — what the memories hold and still have to answer
* `sizedLog2` — its runs, behind the guards

## Main results

* `Log2Ram.Holds.cycle` — one cycle
* `Log2Ram.holds_helper` — what is built
* `sizedLog2_iff`
-/

namespace LeapPlatforms

namespace FpgaComponents

open SyncRam

variable {d : ℕ}

/-- `mkBRAMUnguarded`: where there are no bits there is no RAM. -/
inductive FullRam (d : ℕ)
  | zero
  | sized (ram : SplitRam (BitVec d))

namespace FullRam

/-- `mkBRAMUnguarded` of addresses of some bits, with some contents; a size that is a power of two
needs one RAM. -/
def make (addrSz : ℕ) (mem : ℕ → BitVec d) (readData : BitVec d) : FullRam d :=
  if addrSz = 0 ∨ d = 0 then zero
  else sized (.plain { rows := 2 ^ addrSz, ram := mem, readData := readData })

/-- A cycle. -/
def cycle (addrSz : ℕ) (s : FullRam d) (i : Input (BitVec d)) (w : Fin 4 → Wires (BitVec d)) :
    Option (FullRam d × Option (BitVec d)) :=
  match s with
  | zero => some (zero, if i.readRsp then some (w firstBank).undef else none)
  | sized ram => (ram.cycle addrSz (2 ^ addrSz) i w).map fun t => (sized t.1, t.2)

end FullRam

/-- What `mkBRAMSizedLog2Helper` builds. -/
inductive Log2Ram (d : ℕ)
  /-- `?`. -/
  | missing
  /-- The address space is small. -/
  | whole (ram : FullRam d)
  /-- A local memory and a remote one. -/
  | halves (memBottomHalf : FullRam d) (memTopHalf : Log2Ram d) (oneRemoteZeroLocal : List Bool)
  /-- The upper half is empty. -/
  | lower (memBottomHalf : Log2Ram d)

namespace Log2Ram

/-- `mkBRAMSizedLog2Helper` for a size of some bits. -/
def helper (readData : ℕ → BitVec d) : ℕ → ℕ → (ℕ → BitVec d) → Log2Ram d
  | 0, size, mem => if size = 0 then missing else whole (.make 0 mem (readData 0))
  | n + 1, size, mem =>
    if size = 0 then missing
    else if n + 1 < 10 then whole (.make (n + 1) mem (readData (n + 1)))
    else if size / 2 ^ n % 2 = 1 then
      halves (.make n mem (readData (n + 1)))
        (helper readData n (size % 2 ^ n) fun addr => mem (2 ^ n + addr)) []
    else lower (helper readData n (size % 2 ^ n) mem)

/-- The top bit of an address of some bits. -/
def remote (n addr : ℕ) : Bool := addr / 2 ^ (n - 1) % 2 = 1

/-- What the lower half is asked, where there is no upper one. -/
def taken (n : ℕ) (i : Input (BitVec d)) : Input (BitVec d) where
  readReq := i.readReq.map (· % 2 ^ (n - 1))
  readRsp := i.readRsp
  write := i.write.map fun x => (x.1 % 2 ^ (n - 1), x.2)

/-- What a half is asked: every read, and the writes that are for it. -/
def half (n : ℕ) (top : Bool) (i : Input (BitVec d)) : Input (BitVec d) :=
  taken n { i with write := i.write.filter fun x => remote n x.1 = top }

/-- A cycle. -/
def cycle : ℕ → Log2Ram d → Input (BitVec d) → (ℕ → Fin 4 → Wires (BitVec d)) →
    Option (Log2Ram d × Option (BitVec d))
  | n, missing, i, w => some (missing, if i.readRsp then some (w n firstBank).undef else none)
  | n, whole ram, i, w => (ram.cycle n i (w n)).map fun t => (whole t.1, t.2)
  | n, halves memBottomHalf memTopHalf oneRemoteZeroLocal, i, w =>
    if (i.readReq.isSome → oneRemoteZeroLocal.length < 2) ∧
        (i.readRsp = true → oneRemoteZeroLocal ≠ []) then
      (memBottomHalf.cycle (n - 1) (half n false i) (w n)).bind fun bottom =>
        (cycle (n - 1) memTopHalf (half n true i) w).map fun top =>
          (halves bottom.1 top.1
              ((if i.readRsp then oneRemoteZeroLocal.tail else oneRemoteZeroLocal) ++
                (i.readReq.map (remote n)).toList),
            if oneRemoteZeroLocal.head? = some true then top.2 else bottom.2)
    else none
  | n, lower memBottomHalf, i, w =>
    (cycle (n - 1) memBottomHalf (taken n i) w).map fun t => (lower t.1, t.2)

end Log2Ram

variable (d) in
/-- The raw memory for addresses of some bits. -/
def log2 (addrSz : ℕ) : Component (BitVec d) where
  σ := Log2Ram d
  χ := ℕ → Fin 4 → Wires (BitVec d)
  cycle := Log2Ram.cycle addrSz

/-- `mem_size_base`. -/
def memSizeBase (addrSz memSize : ℕ) : ℕ := memSize % 2 ^ (addrSz + 1) % 2 ^ addrSz

/-- `mkBRAMSizedLog2`, without the guards. -/
def mkLog2 (addrSz memSize : ℕ) (readData : ℕ → BitVec d) (mem : ℕ → BitVec d) : Log2Ram d :=
  if 2 ^ addrSz < memSize then .whole (.make addrSz mem (readData addrSz))
  else .helper readData addrSz (memSizeBase addrSz memSize) mem

variable (d) in
/-- The runs of `mkBRAMSizedLog2`, at addresses below the size. -/
def sizedLog2 (addrSz memSize : ℕ) : TransitionSystem (Guarding (log2 d addrSz)) :=
  guarding (log2 d addrSz) (· < memSize) fun ram mem =>
    ∃ readData, ram = mkLog2 addrSz memSize readData mem

/-! ### What is owed -/

section Owed

variable {α : Type}

/-- What is owed for a read: anything, where the address is not one of the memory. -/
def owed (size : ℕ) (mem : ℕ → α) (readReq : Option ℕ) : Option (Option α) :=
  readReq.map fun addr => if addr < size then some (mem addr) else none

/-- An answer to what is owed. -/
structure Meets (due : Option (Option α)) (answer : Option α) : Prop where
  /-- There is one if one is owed. -/
  isSome : answer.isSome = due.isSome
  /-- It is the right one. -/
  eq : ∀ v, due = some (some v) → answer = some v

/-- What is owed is owed by another memory too. -/
structure Covers (due' due : Option (Option α)) : Prop where
  isSome : due'.isSome = due.isSome
  eq : ∀ v, due = some (some v) → due' = some (some v)

theorem Covers.meets {due' due : Option (Option α)} (h : Covers due' due) {answer : Option α}
    (ha : Meets due' answer) : Meets due answer :=
  ⟨ha.isSome.trans h.isSome, fun v hv => ha.eq v (h.eq v hv)⟩

theorem isSome_owed (size : ℕ) (mem : ℕ → α) (readReq : Option ℕ) :
    (owed size mem readReq).isSome = readReq.isSome := Option.isSome_map

theorem owed_eq {size : ℕ} {mem : ℕ → α} {readReq : Option ℕ} {v : α}
    (h : owed size mem readReq = some (some v)) :
    ∃ addr, readReq = some addr ∧ addr < size ∧ mem addr = v := by
  obtain ⟨addr, hreq, hv⟩ := Option.map_eq_some_iff.mp h
  split at hv
  · next hlt => exact ⟨addr, hreq, hlt, Option.some.inj hv⟩
  · cases hv

theorem owed_of_lt {size : ℕ} (mem : ℕ → α) {addr : ℕ} (h : addr < size) :
    owed size mem (some addr) = some (some (mem addr)) := by
  rw [owed, Option.map_some, if_pos h]

/-- What a memory is asked that answers any read, and has the addresses below a size. -/
structure Asks (n size : ℕ) (due : Option (Option α)) (i : Input α) : Prop where
  readRsp : i.readRsp = due.isSome
  readReq : ∀ a, i.readReq = some a → a < 2 ^ n
  write : ∀ a v, i.write = some (a, v) → a < size

end Owed

/-! ### One cycle -/

namespace FullRam

/-- What a RAM holds, and what it still has to answer. -/
inductive Holds (n : ℕ) (mem : ℕ → BitVec d) (due : Option (Option (BitVec d))) :
    FullRam d → Prop
  | zero : d = 0 → Holds n mem due zero
  | sized {ram : SplitRam (BitVec d)} {f : Flat (BitVec d)} : SplitAgrees n (2 ^ n) ram f →
      (∀ a < 2 ^ n, f.mem a = mem a) → Meets due (f.sampled.map Prod.snd) →
      Holds n mem due (sized ram)

theorem Holds.congr {n : ℕ} {mem mem' : ℕ → BitVec d} {due : Option (Option (BitVec d))}
    {s : FullRam d} (h : Holds n mem due s) (hmem : ∀ a < 2 ^ n, mem a = mem' a) :
    Holds n mem' due s := by
  cases h with
  | zero hd => exact .zero hd
  | sized hagrees hflat hmeets =>
    exact .sized hagrees (fun a ha => (hflat a ha).trans (hmem a ha)) hmeets

theorem Holds.make {n : ℕ} (h : n ≠ 0) (mem : ℕ → BitVec d) (readData : BitVec d) :
    Holds n mem none (make n mem readData) := by
  rw [FullRam.make]
  split
  · next hzero => exact .zero (hzero.resolve_left h)
  · have hplain : IsPlain n (2 ^ n) := by
      have hpos := Nat.two_pow_pos n
      refine Or.inr ?_
      omega
    exact .sized (splitAgrees_of_built ⟨hplain, rfl⟩) (fun a _ => rfl)
      ⟨rfl, fun v hv => by cases hv⟩

/-- Without bits, any answer is right. -/
theorem meets_of_noBits (h : d = 0) {due : Option (Option (BitVec d))} {readRsp : Bool}
    (hrsp : readRsp = due.isSome) (undef : BitVec d) :
    Meets due (if readRsp then some undef else none) := by
  subst h
  refine ⟨?_, fun v hv => ?_⟩
  · rw [hrsp]
    cases due <;> rfl
  · rw [hrsp, hv]
    exact congrArg some (Subsingleton.elim _ _)

theorem Holds.cycle {n : ℕ} {mem : ℕ → BitVec d} {due : Option (Option (BitVec d))}
    {s : FullRam d} (h : Holds n mem due s) {i : Input (BitVec d)} (hi : Asks n (2 ^ n) due i)
    (w : Fin 4 → Wires (BitVec d)) :
    ∃ t r, s.cycle n i w = some (t, r) ∧ Meets due r ∧
      Holds n (written mem i.write) (owed (2 ^ n) mem i.readReq) t := by
  cases h with
  | zero hd => exact ⟨_, _, rfl, meets_of_noBits hd hi.readRsp _, .zero hd⟩
  | @sized ram f hagrees hmem hmeets =>
    have hobeys : f.Obeys (InRange n (2 ^ n)) i := by
      refine ⟨?_, fun a ha => ⟨hi.readReq a ha, hi.readReq a ha⟩,
        fun a v ha => ⟨hi.write a v ha, hi.write a v ha⟩⟩
      rw [hi.readRsp, ← hmeets.isSome, Option.isSome_map]
    obtain ⟨t, hcycle, hnext⟩ := (split_implements n (2 ^ n)).cycle ram f i w hagrees hobeys
    have hcycle' : ram.cycle n (2 ^ n) i w = some (t, f.sampled.map Prod.snd) := hcycle
    refine ⟨.sized t, f.sampled.map Prod.snd, ?_, hmeets, .sized hnext (fun a ha => ?_) ?_⟩
    · rw [FullRam.cycle, hcycle']
      rfl
    · show written f.mem i.write a = written mem i.write a
      cases i.write with
      | none => exact hmem a ha
      | some x =>
        rw [written, written]
        by_cases hax : a = x.1
        · rw [hax, Function.update_self, Function.update_self]
        · rw [Function.update_of_ne hax, Function.update_of_ne hax]
          exact hmem a ha
    · refine ⟨?_, fun v hv => ?_⟩
      · rw [isSome_owed, Option.isSome_map, Flat.cycle, Option.isSome_map]
      · obtain ⟨a, hreq, hlt, rfl⟩ := owed_eq hv
        rw [Flat.cycle, hreq]
        exact congrArg some (hmem a hlt)

end FullRam

namespace Log2Ram

/-- What the memories hold, and what they still have to answer. -/
inductive Holds : ℕ → ℕ → (ℕ → BitVec d) → Option (Option (BitVec d)) → Log2Ram d → Prop
  | missing {n size : ℕ} {mem : ℕ → BitVec d} {due : Option (Option (BitVec d))} :
      (d = 0 ∨ size = 0 ∧ ∀ v, due ≠ some (some v)) → Holds n size mem due missing
  | whole {n size : ℕ} {mem : ℕ → BitVec d} {due due' : Option (Option (BitVec d))}
      {ram : FullRam d} : size ≤ 2 ^ n → FullRam.Holds n mem due' ram → Covers due' due →
      Holds n size mem due (whole ram)
  | halves {n rest : ℕ} {mem : ℕ → BitVec d} {due bottomDue topDue : Option (Option (BitVec d))}
      {memBottomHalf : FullRam d} {memTopHalf : Log2Ram d} {remote : Bool} : rest ≤ 2 ^ n →
      FullRam.Holds n mem bottomDue memBottomHalf →
      Holds n rest (fun a => mem (2 ^ n + a)) topDue memTopHalf →
      bottomDue.isSome = due.isSome → topDue.isSome = due.isSome →
      Covers (if remote then topDue else bottomDue) due →
      Holds (n + 1) (2 ^ n + rest) mem due
        (halves memBottomHalf memTopHalf (due.map fun _ => remote).toList)
  | lower {n size : ℕ} {mem : ℕ → BitVec d} {due due' : Option (Option (BitVec d))}
      {memBottomHalf : Log2Ram d} : size ≤ 2 ^ n → Holds n size mem due' memBottomHalf →
      Covers due' due → Holds (n + 1) size mem due (lower memBottomHalf)

/-- The top bit says whether an address is in the upper half. -/
theorem remote_eq {n a : ℕ} (h : a < 2 ^ (n + 1)) : remote (n + 1) a = decide (2 ^ n ≤ a) := by
  rw [remote, Nat.add_sub_cancel, decide_eq_decide]
  rw [Nat.pow_succ] at h
  constructor
  · intro hone
    by_contra hlt
    rw [Nat.div_eq_of_lt (by omega)] at hone
    cases hone
  · intro hle
    have hdiv : a / 2 ^ n = 1 := by
      rw [Nat.div_eq_iff (by omega)]
      omega
    rw [hdiv]

/-- An address of the upper half, in that half. -/
theorem mod_eq {n a : ℕ} (h : a < 2 ^ (n + 1)) (hle : 2 ^ n ≤ a) : a = 2 ^ n + a % 2 ^ n := by
  rw [Nat.pow_succ] at h
  rw [Nat.mod_eq_sub_mod hle, Nat.mod_eq_of_lt (by omega)]
  omega

section Half

variable {n : ℕ} {mem : ℕ → BitVec d} {i : Input (BitVec d)}

theorem readReq_half (top : Bool) :
    (half (n + 1) top i).readReq = i.readReq.map (· % 2 ^ n) := rfl

theorem write_half_of_eq {top : Bool} {a : ℕ} {v : BitVec d} (hi : i.write = some (a, v))
    (h : remote (n + 1) a = top) : (half (n + 1) top i).write = some (a % 2 ^ n, v) := by
  rw [half, taken, hi, Option.filter_some, if_pos (by simpa using h)]
  rfl

theorem write_half_of_ne {top : Bool} {a : ℕ} {v : BitVec d} (hi : i.write = some (a, v))
    (h : remote (n + 1) a ≠ top) : (half (n + 1) top i).write = none := by
  rw [half, taken, hi, Option.filter_some, if_neg (by simpa using h)]
  rfl

theorem write_half_of_none (top : Bool) (hi : i.write = none) :
    (half (n + 1) top i).write = none := by
  rw [half, taken, hi]
  rfl

/-- The lower half after a write. -/
theorem written_bottom (hi : ∀ a v, i.write = some (a, v) → a < 2 ^ (n + 1)) {a : ℕ}
    (ha : a < 2 ^ n) : written mem (half (n + 1) false i).write a = written mem i.write a := by
  cases hw : i.write with
  | none => rw [write_half_of_none false hw]
  | some x =>
    obtain ⟨c, v⟩ := x
    have hc := hi c v hw
    by_cases hle : 2 ^ n ≤ c
    · rw [write_half_of_ne hw (by rw [remote_eq hc]; simpa using hle), written, written,
        Function.update_of_ne (by omega)]
    · rw [write_half_of_eq hw (by rw [remote_eq hc]; simpa using hle), written, written,
        Nat.mod_eq_of_lt (by omega)]

/-- The upper half after a write. -/
theorem written_top (hi : ∀ a v, i.write = some (a, v) → a < 2 ^ (n + 1)) :
    written (fun a => mem (2 ^ n + a)) (half (n + 1) true i).write =
      fun a => written mem i.write (2 ^ n + a) := by
  funext a
  cases hw : i.write with
  | none => rw [write_half_of_none true hw]; rfl
  | some x =>
    obtain ⟨c, v⟩ := x
    have hc := hi c v hw
    by_cases hle : 2 ^ n ≤ c
    · have hmod := mod_eq hc hle
      rw [write_half_of_eq hw (by rw [remote_eq hc]; simpa using hle), written, written]
      by_cases hac : a = c % 2 ^ n
      · rw [hac, Function.update_self, ← hmod, Function.update_self]
      · rw [Function.update_of_ne hac, Function.update_of_ne (by omega)]
    · rw [write_half_of_ne hw (by rw [remote_eq hc]; simpa using hle), written, written,
        Function.update_of_ne (by omega)]

theorem write_bottom_lt {top : Bool} {a : ℕ} {v : BitVec d}
    (h : (half (n + 1) top i).write = some (a, v)) : a < 2 ^ n := by
  obtain ⟨x, _, hx⟩ := Option.map_eq_some_iff.mp h
  obtain ⟨rfl, _⟩ := Prod.mk.inj hx
  exact Nat.mod_lt _ (Nat.two_pow_pos n)

theorem write_top_lt {rest : ℕ} (hrest : rest ≤ 2 ^ n)
    (hi : ∀ a v, i.write = some (a, v) → a < 2 ^ n + rest) {a : ℕ} {v : BitVec d}
    (h : (half (n + 1) true i).write = some (a, v)) : a < rest := by
  cases hw : i.write with
  | none =>
    rw [write_half_of_none true hw] at h
    cases h
  | some x =>
    obtain ⟨c, u⟩ := x
    have hlt := hi c u hw
    have hc : c < 2 ^ (n + 1) := by
      rw [Nat.pow_succ]
      omega
    by_cases hle : 2 ^ n ≤ c
    · have hmod := mod_eq hc hle
      rw [write_half_of_eq hw (by rw [remote_eq hc]; simpa using hle)] at h
      obtain ⟨rfl, _⟩ := Prod.mk.inj (Option.some.inj h)
      omega
    · rw [write_half_of_ne hw (by rw [remote_eq hc]; simpa using hle)] at h
      cases h

end Half

/-- What is owed for an address is owed by its half. -/
theorem covers_half {n rest : ℕ} {mem : ℕ → BitVec d} {i : Input (BitVec d)}
    (hi : ∀ a, i.readReq = some a → a < 2 ^ (n + 1)) :
    Covers (if (i.readReq.map (remote (n + 1))).getD false = true then
        owed rest (fun a => mem (2 ^ n + a)) (half (n + 1) true i).readReq
      else owed (2 ^ n) mem (half (n + 1) false i).readReq)
      (owed (2 ^ n + rest) mem i.readReq) := by
  refine ⟨?_, fun v hv => ?_⟩
  · rw [apply_ite Option.isSome, isSome_owed, isSome_owed, isSome_owed, readReq_half, readReq_half,
      Option.isSome_map, ite_self]
  · obtain ⟨a, hreq, hlt, rfl⟩ := owed_eq hv
    have ha := hi a hreq
    rw [readReq_half, readReq_half, hreq, Option.map_some, Option.map_some, Option.getD_some,
      remote_eq ha]
    by_cases hle : 2 ^ n ≤ a
    · have hmod := mod_eq ha hle
      rw [if_pos (by simpa using hle), owed_of_lt _ (by omega), ← hmod]
    · have hmod : a % 2 ^ n = a := Nat.mod_eq_of_lt (by omega)
      rw [if_neg (by simpa using hle), hmod, owed_of_lt _ (by omega)]

/-- `oneRemoteZeroLocal` after a cycle. -/
theorem oneRemoteZeroLocal_eq {due : Option (Option (BitVec d))} {i : Input (BitVec d)}
    (hrsp : i.readRsp = due.isSome) (n size : ℕ) (mem : ℕ → BitVec d) (isRemote : Bool) :
    (if i.readRsp = true then (due.map fun _ => isRemote).toList.tail
        else (due.map fun _ => isRemote).toList) ++ (i.readReq.map (remote n)).toList =
      ((owed size mem i.readReq).map fun _ => (i.readReq.map (remote n)).getD false).toList := by
  rw [hrsp]
  cases due <;> cases i.readReq <;> rfl

/-- **One cycle.** Every read is answered, rightly if its address is one of the memory. -/
theorem Holds.cycle {n size : ℕ} {mem : ℕ → BitVec d} {due : Option (Option (BitVec d))}
    {s : Log2Ram d} (h : Holds n size mem due s) {i : Input (BitVec d)} (hi : Asks n size due i)
    (w : ℕ → Fin 4 → Wires (BitVec d)) :
    ∃ t r, s.cycle n i w = some (t, r) ∧ Meets due r ∧
      Holds n size (written mem i.write) (owed size mem i.readReq) t := by
  induction h generalizing i with
  | @missing n size mem due hnone =>
    refine ⟨_, _, rfl, ?_, .missing ?_⟩
    · rcases hnone with hd | ⟨_, hdue⟩
      · exact FullRam.meets_of_noBits hd hi.readRsp _
      · refine ⟨?_, fun v hv => absurd hv (hdue v)⟩
        rw [hi.readRsp]
        cases due <;> rfl
    · refine hnone.imp_right fun hzero => ⟨hzero.1, fun v hv => ?_⟩
      obtain ⟨a, _, hlt, _⟩ := owed_eq hv
      omega
  | @whole n size mem due due' ram hsize hram hcovers =>
    obtain ⟨t, r, hcycle, hmeets, hnext⟩ := hram.cycle (i := i)
      ⟨hi.readRsp.trans hcovers.isSome.symm, hi.readReq,
        fun a v hw => (hi.write a v hw).trans_le hsize⟩ (w n)
    refine ⟨.whole t, r, ?_, hcovers.meets hmeets, .whole hsize hnext ?_⟩
    · rw [Log2Ram.cycle, hcycle]
      rfl
    · refine ⟨(isSome_owed ..).trans (isSome_owed ..).symm, fun v hv => ?_⟩
      obtain ⟨a, hreq, hlt, rfl⟩ := owed_eq hv
      rw [hreq]
      exact owed_of_lt mem (hlt.trans_le hsize)
  | @halves n rest mem due bottomDue topDue bottom top isRemote hrest hbottom htop hbottomDue
      htopDue hcovers ih =>
    have hwrite : ∀ a v, i.write = some (a, v) → a < 2 ^ (n + 1) := by
      intro a v hw
      have hlt := hi.write a v hw
      rw [Nat.pow_succ]
      omega
    have hmod : ∀ top a, (half (n + 1) top i).readReq = some a → a < 2 ^ n := by
      intro top a ha
      obtain ⟨b, _, rfl⟩ := Option.map_eq_some_iff.mp ha
      exact Nat.mod_lt _ (Nat.two_pow_pos n)
    obtain ⟨b, r, hcycle, hmeets, hnext⟩ := hbottom.cycle (i := half (n + 1) false i)
      ⟨hi.readRsp.trans hbottomDue.symm, hmod false, fun a v => write_bottom_lt⟩ (w (n + 1))
    obtain ⟨t, r', hcycle', hmeets', hnext'⟩ := ih (i := half (n + 1) true i)
      ⟨hi.readRsp.trans htopDue.symm, hmod true, fun a v => write_top_lt hrest hi.write⟩
    have hguard : (i.readReq.isSome = true → (due.map fun _ => isRemote).toList.length < 2) ∧
        (i.readRsp = true → (due.map fun _ => isRemote).toList ≠ []) := by
      rw [hi.readRsp]
      cases due <;> simp
    refine ⟨.halves b t ((owed (2 ^ n + rest) mem i.readReq).map fun _ =>
        (i.readReq.map (remote (n + 1))).getD false).toList,
      if (due.map fun _ => isRemote).toList.head? = some true then r' else r,
      (if_pos hguard).trans ?_, ?_, ?_⟩
    · rw [Nat.add_sub_cancel, hcycle, Option.bind_some, hcycle', Option.map_some,
        oneRemoteZeroLocal_eq hi.readRsp]
    · cases hdue : due with
      | none =>
        rw [hdue] at hbottomDue
        exact ⟨hmeets.isSome.trans hbottomDue, fun v hv => by cases hv⟩
      | some z =>
        rw [← hdue]
        refine hcovers.meets ?_
        rw [hdue]
        cases isRemote with
        | false => exact hmeets
        | true => exact hmeets'
    · rw [written_top hwrite] at hnext'
      refine .halves hrest (hnext.congr fun a ha => written_bottom hwrite ha) hnext' ?_ ?_ ?_
      · rw [isSome_owed, isSome_owed, readReq_half, Option.isSome_map]
      · rw [isSome_owed, isSome_owed, readReq_half, Option.isSome_map]
      · exact covers_half hi.readReq
  | @lower n size mem due due' s hsize hs hcovers ih =>
    have hmodwrite : (taken (n + 1) i).write = i.write := by
      show i.write.map _ = i.write
      cases hw : i.write with
      | none => rfl
      | some x =>
        have hlt := (hi.write x.1 x.2 hw).trans_le hsize
        show some (x.1 % 2 ^ n, x.2) = some x
        rw [Nat.mod_eq_of_lt hlt]
    have hasks : Asks n size due' (taken (n + 1) i) := by
      refine ⟨hi.readRsp.trans hcovers.isSome.symm, fun a ha => ?_, fun a v hw => ?_⟩
      · obtain ⟨b, _, rfl⟩ := Option.map_eq_some_iff.mp ha
        exact Nat.mod_lt _ (Nat.two_pow_pos n)
      · rw [hmodwrite] at hw
        exact hi.write a v hw
    obtain ⟨t, r, hcycle, hmeets, hnext⟩ := ih hasks
    rw [hmodwrite] at hnext
    refine ⟨.lower t, r, ?_, hcovers.meets hmeets, .lower hsize hnext ⟨?_, fun v hv => ?_⟩⟩
    · rw [Log2Ram.cycle, Nat.add_sub_cancel, hcycle]
      rfl
    · rw [isSome_owed, isSome_owed]
      exact Option.isSome_map
    · obtain ⟨a, hreq, hlt, rfl⟩ := owed_eq hv
      have htaken : (taken (n + 1) i).readReq = some a := by
        show i.readReq.map (· % 2 ^ n) = _
        rw [hreq, Option.map_some, Nat.mod_eq_of_lt (hlt.trans_le hsize)]
      rw [htaken]
      exact owed_of_lt mem hlt

/-! ### What is built -/

/-- **The helper** builds a memory of the size it is given. -/
theorem holds_helper (readData : ℕ → BitVec d) {n size : ℕ} (h : size < 2 ^ n)
    (mem : ℕ → BitVec d) : Holds n size mem none (helper readData n size mem) := by
  induction n generalizing size mem with
  | zero =>
    have hzero : size = 0 := by simpa using h
    rw [helper, if_pos hzero]
    exact .missing (Or.inr ⟨hzero, fun v hv => by cases hv⟩)
  | succ n ih =>
    rw [Nat.pow_succ] at h
    rw [helper]
    by_cases hzero : size = 0
    · rw [if_pos hzero]
      exact .missing (Or.inr ⟨hzero, fun v hv => by cases hv⟩)
    by_cases hsmall : n + 1 < 10
    · rw [if_neg hzero, if_pos hsmall]
      exact .whole (by rw [Nat.pow_succ]; omega) (.make (by omega) mem _) ⟨rfl, fun v hv => hv⟩
    have hrest := Nat.mod_lt size (Nat.two_pow_pos n)
    by_cases htop : size / 2 ^ n % 2 = 1
    · rw [if_neg hzero, if_neg hsmall, if_pos htop]
      have hsize : size = 2 ^ n + size % 2 ^ n := by
        refine mod_eq (by rw [Nat.pow_succ]; exact h) ?_
        by_contra hlt
        rw [Nat.div_eq_of_lt (by omega)] at htop
        cases htop
      have hbottom : FullRam.Holds n mem none (.make n mem (readData (n + 1))) :=
        .make (by omega) mem _
      have hhalves : Holds (n + 1) (2 ^ n + size % 2 ^ n) mem none
          (halves (.make n mem (readData (n + 1)))
            (helper readData n (size % 2 ^ n) fun addr => mem (2 ^ n + addr))
            ((none : Option (Option (BitVec d))).map fun _ => false).toList) :=
        .halves hrest.le hbottom (ih hrest _) rfl rfl ⟨rfl, fun v hv => hv⟩
      rw [← hsize] at hhalves
      exact hhalves
    · rw [if_neg hzero, if_neg hsmall, if_neg htop]
      have hsize : size % 2 ^ n = size := by
        refine Nat.mod_eq_of_lt ?_
        by_contra hle
        refine htop ?_
        have hdiv : size / 2 ^ n = 1 := by
          rw [Nat.div_eq_iff (by omega)]
          omega
        rw [hdiv]
      rw [hsize] at hrest ⊢
      exact .lower hrest.le (ih hrest mem) ⟨rfl, fun v hv => hv⟩

theorem helper_zero (readData : ℕ → BitVec d) (n : ℕ) (mem : ℕ → BitVec d) :
    helper readData n 0 mem = missing := by
  cases n <;> rfl

end Log2Ram

section Runs

variable {addrSz memSize : ℕ}

/-- The raw memory, where the size is not lost. -/
def log2Ram (h : memSize ≤ 2 ^ addrSz) : Ram (BitVec d) where
  toComponent := log2 d addrSz
  inRange := (· < memSize)
  Rel s f := Log2Ram.Holds addrSz memSize f.mem (f.sampled.map fun x => some x.2) s
  implements.cycle s f i w hs hi := by
    have hasks : Asks addrSz memSize (f.sampled.map fun x => some x.2) i :=
      ⟨hi.readRsp.trans Option.isSome_map.symm, fun a ha => (hi.readReq a ha).trans_le h, hi.write⟩
    obtain ⟨t, r, hcycle, hmeets, hnext⟩ := hs.cycle hasks w
    have hanswer : r = f.sampled.map Prod.snd := by
      cases hsampled : f.sampled with
      | none =>
        have hnone := hmeets.isSome
        rw [hsampled] at hnone
        exact Option.isNone_iff_eq_none.mp (Option.isSome_eq_false_iff.mp hnone)
      | some x => exact hmeets.eq x.2 (by rw [hsampled]; rfl)
    refine ⟨t, by rw [← hanswer]; exact hcycle, ?_⟩
    have howed : owed memSize f.mem i.readReq = (f.cycle i).sampled.map fun x => some x.2 := by
      rw [Flat.cycle, Option.map_map]
      cases hreq : i.readReq with
      | none => rfl
      | some a => exact owed_of_lt f.mem (hi.readReq a hreq)
    rw [← howed]
    exact hnext

theorem holds_mkLog2 (h : memSize ≤ 2 ^ addrSz) (hsize : memSize < 2 ^ addrSz ∨ d = 0)
    (readData : ℕ → BitVec d) (mem : ℕ → BitVec d) :
    Log2Ram.Holds addrSz memSize mem none (mkLog2 addrSz memSize readData mem) := by
  rw [mkLog2, if_neg h.not_gt, memSizeBase]
  have hext : memSize % 2 ^ (addrSz + 1) = memSize := by
    refine Nat.mod_eq_of_lt ?_
    have hpos := Nat.two_pow_pos addrSz
    rw [Nat.pow_succ]
    omega
  rw [hext]
  rcases Nat.lt_or_eq_of_le h with hlt | rfl
  · rw [Nat.mod_eq_of_lt hlt]
    exact Log2Ram.holds_helper readData hlt mem
  · rw [Nat.mod_self, Log2Ram.helper_zero]
    exact .missing (Or.inl (hsize.resolve_left (lt_irrefl _)))

/-- A size of `2 ^ n` is lost, and nothing is built. -/
theorem mkLog2_full (addrSz : ℕ) (readData : ℕ → BitVec d) (mem : ℕ → BitVec d) :
    mkLog2 addrSz (2 ^ addrSz) readData mem = .missing := by
  have hext : 2 ^ addrSz % 2 ^ (addrSz + 1) = 2 ^ addrSz := by
    refine Nat.mod_eq_of_lt ?_
    have hpos := Nat.two_pow_pos addrSz
    rw [Nat.pow_succ]
    omega
  rw [mkLog2, if_neg (lt_irrefl _), memSizeBase, hext, Nat.mod_self, Log2Ram.helper_zero]

/-- Where the size is not lost, the module is a memory. -/
theorem behaves_of_lt (h : memSize ≤ 2 ^ addrSz) (hsize : memSize < 2 ^ addrSz ∨ d = 0)
    {s : Guarding (log2 d addrSz)} (hs : (sizedLog2 d addrSz memSize).Reachable s) :
    s.Behaves (· < memSize) := by
  have hram : (guardingRam (log2Ram (d := d) h)).Reachable s := by
    refine hs.mono ?_ fun _ _ hstep => hstep
    rintro s ⟨ram, mem, ⟨readData, rfl⟩, rfl⟩
    exact ⟨_, mem, holds_mkLog2 h hsize readData mem, rfl⟩
  exact (answers_of_reachable hram).behaves

/-- One word is written, read, and taken. -/
def wordWritten (d : ℕ) : Input (BitVec d) :=
  { readReq := none, readRsp := false, write := some (0, 1#d) }

def wordRead (d : ℕ) : Input (BitVec d) := { readReq := some 0, readRsp := false, write := none }

def wordTaken (d : ℕ) : Input (BitVec d) := { readReq := none, readRsp := true, write := none }

theorem inMemory_wordWritten (hpos : 0 < memSize) : InMemory (· < memSize) (wordWritten d) := by
  refine ⟨fun a ha => ?_, fun a v ha => ?_⟩
  · cases ha
  · obtain ⟨rfl, rfl⟩ := Prod.mk.inj (Option.some.inj ha)
    exact hpos

theorem inMemory_wordRead (hpos : 0 < memSize) : InMemory (· < memSize) (wordRead d) := by
  refine ⟨fun a ha => ?_, fun a v ha => ?_⟩
  · obtain rfl := Option.some.inj ha
    exact hpos
  · cases ha

theorem inMemory_wordTaken : InMemory (· < memSize) (wordTaken d) := by
  refine ⟨fun a ha => ?_, fun a v ha => ?_⟩
  · cases ha
  · cases ha

variable (d) in
/-- A memory that is not there answers with zeros. -/
def zeros : ℕ → Fin 4 → Wires (BitVec d) := fun _ _ => { readAddr := 0, undef := 0#d }

section Full

variable (d) in
/-- The word is in the flat memory. -/
def flatWord : ℕ → BitVec d := Function.update (fun _ => 0#d) 0 1#d

/-- The module without a memory, before and after the read. -/
def noMemory (d addrSz : ℕ) (asked answered : List (BitVec d)) : Guarding (log2 d addrSz) where
  bram := .reset .missing
  flat := .start (flatWord d)
  asked := asked
  answered := answered

/-- The module without a memory, when the read is made. -/
def readMade (d addrSz : ℕ) : Guarding (log2 d addrSz) where
  bram := { ram := .missing, buffer := [], readReqMade := 1, bufferingAvailable := 1 }
  flat := { mem := flatWord d, sampled := some (0, 1#d) }
  asked := [1#d]
  answered := []

theorem fire_wordWritten (addrSz : ℕ) :
    (Guarding.reset (C := log2 d addrSz) .missing fun _ => 0#d).fire (wordWritten d) (zeros d) =
      some (noMemory d addrSz [] []) := by
  simp [Guarding.fire, Guarding.reset, GuardedBram.cycle, GuardedBram.reset, GuardedBram.after,
    GuardedBram.enqIntoFIFO, LCounter.next, log2, Log2Ram.cycle, Flat.start, Flat.cycle, written,
    wordWritten, noMemory, flatWord]

theorem fire_wordRead (addrSz : ℕ) :
    (noMemory d addrSz [] []).fire (wordRead d) (zeros d) = some (readMade d addrSz) := by
  simp [Guarding.fire, GuardedBram.cycle, GuardedBram.reset, GuardedBram.after,
    GuardedBram.enqIntoFIFO, LCounter.next, log2, Log2Ram.cycle, Flat.start, Flat.cycle, written,
    wordRead, noMemory, readMade, flatWord]

theorem fire_wordTaken (addrSz : ℕ) :
    (readMade d addrSz).fire (wordTaken d) (zeros d) = some (noMemory d addrSz [1#d] [0#d]) := by
  simp [Guarding.fire, GuardedBram.cycle, GuardedBram.reset, GuardedBram.after,
    GuardedBram.enqIntoFIFO, LCounter.next, log2, Log2Ram.cycle, Flat.start, Flat.cycle, written,
    wordTaken, noMemory, readMade, zeros]

/-- Where the size is lost, what was written is not what is read. -/
theorem not_behaves_full (hd : d ≠ 0) (addrSz : ℕ) :
    ∃ s, (sizedLog2 d addrSz (2 ^ addrSz)).Reachable s ∧ ¬ s.Behaves (· < 2 ^ addrSz) := by
  have hpos := Nat.two_pow_pos addrSz
  have hinit : (sizedLog2 d addrSz (2 ^ addrSz)).Reachable
      (.reset (C := log2 d addrSz) .missing fun _ => 0#d) :=
    .init ⟨_, _, ⟨fun _ => 0#d, (mkLog2_full addrSz _ _).symm⟩, rfl⟩
  have hwritten := hinit.step ⟨_, _, inMemory_wordWritten hpos, fire_wordWritten addrSz⟩
  have hread := hwritten.step ⟨_, _, inMemory_wordRead hpos, fire_wordRead addrSz⟩
  have htaken := hread.step ⟨_, _, inMemory_wordTaken, fire_wordTaken addrSz⟩
  refine ⟨_, htaken, fun hbehaves => ?_⟩
  have hasked : [1#d] = [0#d] ++ _ := hbehaves.asked_eq
  have hone := congrArg BitVec.toNat (List.cons.inj hasked).1
  rw [BitVec.toNat_ofNat, BitVec.toNat_ofNat, Nat.one_mod_two_pow_eq_one.mpr (by omega)] at hone
  exact absurd hone (by simp)

end Full

/-- **A size that is not a power of two** is served: up to `2 ^ n` words behave as a RAM at
addresses of `n` bits exactly if there are fewer than that, or no bits in a word. -/
theorem sizedLog2_iff (h : memSize ≤ 2 ^ addrSz) :
    (∀ s, (sizedLog2 d addrSz memSize).Reachable s → s.Behaves (· < memSize)) ↔
      memSize < 2 ^ addrSz ∨ d = 0 := by
  constructor
  · intro hbehaves
    rcases Nat.lt_or_eq_of_le h with hlt | rfl
    · exact Or.inl hlt
    · by_contra hnot
      obtain ⟨s, hs, hfails⟩ := not_behaves_full (not_or.mp hnot).2 addrSz
      exact hfails (hbehaves s hs)
  · intro hsize s hs
    exact behaves_of_lt h hsize hs

theorem sizedLog2_iff_bytes :
    (∀ s, (sizedLog2 8 11 1025).Reachable s → s.Behaves (· < 1025)) ↔ 1025 < 2 ^ 11 ∨ 8 = 0 :=
  sizedLog2_iff (by decide)

/-- A kilobyte at addresses of ten bits is not a RAM. -/
theorem not_sizedLog2_full :
    ¬ ∀ d n memSize, 1 ≤ memSize → memSize ≤ 2 ^ n →
      ∀ s, (sizedLog2 d n memSize).Reachable s → s.Behaves (· < memSize) := by
  intro h
  obtain ⟨s, hs, hfails⟩ := not_behaves_full (d := 8) (by decide) 10
  exact hfails (h 8 10 (2 ^ 10) (by decide) le_rfl s hs)

end Runs

end FpgaComponents

end LeapPlatforms
