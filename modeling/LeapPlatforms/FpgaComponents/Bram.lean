import LeapPlatforms.Foundation.SyncRam
import Mathlib.Algebra.Order.Ring.Nat
import Mathlib.Data.BitVec

/-!
# Unguarded block RAMs

The Verilog module `Bram`, and the module that puts a RAM of a size that is not a power of two
together from up to four of them. The banks have a half, a quarter, an eighth and a sixteenth of the
address space; the top four bits of the size, rounded up, say which of them there are. A bank is
picked by the highest bit in which the address has a zero and the size a one.

An address is a number; it fits the width where it is in range. The address wire of a port that is
not enabled has any value, and a row that there is not is read as any value.

## Main definitions

* `Bram`, `Bram.clock`, `unguarded` — the Verilog module
* `pick`, `bankOf`, `rowOf`, `bankRows`, `locate` — where an address is
* `SplitRam`, `SplitRam.cycle`, `split` — the module of banks

## Main results

* `pick_spec`, `locate_injective`, `row_lt` — the map of addresses
* `unguarded_implements`, `split_implements`
* `split_flat`
-/

namespace LeapPlatforms

namespace FpgaComponents

open SyncRam

variable {α : Type}

/-! ### `Bram.v` -/

/-- The registers of `Bram`. -/
structure Bram (α : Type) where
  /-- `numRows`. -/
  rows : ℕ
  /-- `ram`. -/
  ram : ℕ → α
  /-- `readData`. -/
  readData : α

/-- What is left open for a `Bram` in one cycle. -/
structure Wires (α : Type) where
  /-- `readAddr`, when nothing is read. -/
  readAddr : ℕ
  /-- What a row is read as that there is not. -/
  undef : α

/-- A clock edge: `readData` is loaded in every cycle, with what was there before a write. -/
def Bram.clock (m : Bram α) (readReq : Option ℕ) (write : Option (ℕ × α)) (w : Wires α) :
    Bram α where
  rows := m.rows
  ram := written m.ram (write.filter fun x => x.1 < m.rows)
  readData :=
    if readReq.getD w.readAddr < m.rows then m.ram (readReq.getD w.readAddr) else w.undef

variable (α) in
/-- `mkBRAMUnguardedNonZeroSized`. -/
def unguarded : Component α where
  σ := Bram α
  χ := Wires α
  cycle m i w := some (m.clock i.readReq i.write w, if i.readRsp then some m.readData else none)

/-! ### Banks -/

/-- The bank for some top bits of an address, where `en` are those of the size. -/
def pick (en selections : BitVec 4) : Fin 4 :=
  if selections.getLsbD 3 = false ∧ en.getLsbD 3 = true then 0
  else if selections.getLsbD 2 = false ∧ en.getLsbD 2 = true then 1
  else if selections.getLsbD 1 = false ∧ en.getLsbD 1 = true then 2
  else 3

/-- The bank whose wires stand for those of a memory that is not there. -/
def firstBank : Fin 4 := 0

section Sizes

variable (addrSz size : ℕ)

/-- `t_ADDRESS_SZ`. -/
def addressSz : ℕ := max 4 addrSz

/-- The size is small, or nearly the address space: there is one RAM. -/
def IsPlain : Prop := size ≤ 4096 ∨ 15 * 2 ^ addrSz / 16 < size

instance : Decidable (IsPlain addrSz size) := inferInstanceAs (Decidable (_ ∨ _))

/-- `mem_size_en`. -/
def memSizeEn : BitVec 4 :=
  BitVec.ofNat 4 (size / 2 ^ (addressSz addrSz - 4)) +
    if 0 < size % 2 ^ (addressSz addrSz - 4) then 1 else 0

/-- `selections`. -/
def selections (addr : ℕ) : BitVec 4 := BitVec.ofNat 4 (addr / 2 ^ (addressSz addrSz - 4))

/-- The bank of an address. -/
def bankOf (addr : ℕ) : Fin 4 := pick (memSizeEn addrSz size) (selections addrSz addr)

/-- The row of an address in a bank. -/
def rowOf (bank : Fin 4) (addr : ℕ) : ℕ := addr % 2 ^ (addressSz addrSz - (bank + 1))

/-- The rows of a bank, if there is one. -/
def bankRows (bank : Fin 4) : ℕ :=
  if (memSizeEn addrSz size).getLsbD (3 - bank) = true then 2 ^ addrSz / 2 ^ (bank.val + 1) else 0

end Sizes

/-- `mkBRAMSplitUnguardedNonZeroSized`. -/
inductive SplitRam (α : Type)
  | plain (m : Bram α)
  | banks (ram : Fin 4 → Bram α) (ramIdReqQ : List (Fin 4))

namespace SplitRam

variable (addrSz size : ℕ)

/-- A cycle. -/
def cycle (s : SplitRam α) (i : Input α) (w : Fin 4 → Wires α) :
    Option (SplitRam α × Option α) :=
  match s with
  | plain m =>
    some (plain (m.clock i.readReq i.write (w 0)), if i.readRsp then some m.readData else none)
  | banks ram ramIdReqQ =>
    if (i.readReq.isSome → ramIdReqQ.length < 2) ∧ (i.readRsp = true → ramIdReqQ ≠ []) then
      let readReq b := (i.readReq.filter fun addr => bankOf addrSz size addr = b).map
        (rowOf addrSz b)
      let write b := (i.write.filter fun x => bankOf addrSz size x.1 = b).map fun x =>
        (rowOf addrSz b x.1, x.2)
      some (banks (fun b => (ram b).clock (readReq b) (write b) (w b))
          ((if i.readRsp then ramIdReqQ.tail else ramIdReqQ) ++
            (i.readReq.map (bankOf addrSz size)).toList),
        if i.readRsp then ramIdReqQ.head?.map fun id => (ram id).readData else none)
    else none

/-- The banks that reads wait for. -/
def waiting : SplitRam α → List (Fin 4)
  | plain _ => []
  | banks _ ramIdReqQ => ramIdReqQ

/-- What is built, with any contents. -/
def Built : SplitRam α → Prop
  | plain m => IsPlain addrSz size ∧ m.rows = size
  | banks ram ramIdReqQ => ¬ IsPlain addrSz size ∧ (∀ b, (ram b).rows = bankRows addrSz size b) ∧
    ramIdReqQ = []

/-- What is at an address. -/
def contents : SplitRam α → ℕ → α
  | plain m, addr => m.ram addr
  | banks ram _, addr =>
    (ram (bankOf addrSz size addr)).ram (rowOf addrSz (bankOf addrSz size addr) addr)

end SplitRam

variable (α) in
/-- The module of banks as a component. -/
def split (addrSz size : ℕ) : Component α where
  σ := SplitRam α
  χ := Fin 4 → Wires α
  cycle := SplitRam.cycle addrSz size

/-! ### The map of addresses -/

/-- An address of the memory. -/
def InRange (addrSz size addr : ℕ) : Prop := addr < size ∧ addr < 2 ^ addrSz

/-- **The bank that is picked** exists, and above its bit the address and the size agree. -/
theorem pick_spec : ∀ en selections : BitVec 4, selections.toNat < en.toNat →
    en.getLsbD (3 - pick en selections) = true ∧
      selections.toNat / 2 ^ (4 - (pick en selections).val) =
        en.toNat / 2 ^ (4 - (pick en selections).val) ∧
      selections.toNat % 2 ^ (4 - (pick en selections).val) <
        2 ^ (3 - (pick en selections).val) := by
  decide

section Locate

variable {addrSz size : ℕ}

/-- With banks the address has bits to spare. -/
theorem addrSz_of_banks (h : ¬ IsPlain addrSz size) : ∃ k, addrSz = k + 4 ∧
    size ≤ 15 * 2 ^ k := by
  obtain ⟨hbig, hsmall⟩ := not_or.mp h
  have hge : 4 ≤ addrSz := by
    by_contra hlt
    have hle : 2 ^ addrSz ≤ 2 ^ 4 := Nat.pow_le_pow_right (by decide) (by omega)
    omega
  refine ⟨addrSz - 4, by omega, ?_⟩
  have hpow : 2 ^ addrSz = 16 * 2 ^ (addrSz - 4) := by
    rw [show 16 = 2 ^ 4 from rfl, ← Nat.pow_add, show 4 + (addrSz - 4) = addrSz by omega]
  rw [hpow] at hsmall
  omega

/-- The top bits of an address below the size are less than those of the size, rounded up. -/
theorem selections_lt {addr k : ℕ} (hsize : size ≤ 15 * 2 ^ k) (h : addr < size) :
    (selections (k + 4) addr).toNat = addr / 2 ^ k ∧
      (selections (k + 4) addr).toNat < (memSizeEn (k + 4) size).toNat := by
  have hpos := Nat.two_pow_pos k
  have hbits : addressSz (k + 4) - 4 = k := by
    rw [addressSz]
    omega
  have hdiv := Nat.div_add_mod size (2 ^ k)
  have hmod := Nat.mod_lt size hpos
  have hquot : size / 2 ^ k ≤ 15 := Nat.div_le_of_le_mul (by rw [Nat.mul_comm]; exact hsize)
  have haddr : addr / 2 ^ k ≤ size / 2 ^ k := Nat.div_le_div_right h.le
  have hsel : (selections (k + 4) addr).toNat = addr / 2 ^ k := by
    rw [selections, hbits, BitVec.toNat_ofNat, Nat.mod_eq_of_lt (by omega)]
  refine ⟨hsel, ?_⟩
  rw [hsel, memSizeEn, hbits]
  by_cases hrest : 0 < size % 2 ^ k
  · have hne : size / 2 ^ k ≠ 15 := by
      intro heq
      rw [heq] at hdiv
      omega
    rw [if_pos hrest, BitVec.toNat_add, BitVec.toNat_ofNat]
    show addr / 2 ^ k < (size / 2 ^ k % 2 ^ 4 + 1) % 2 ^ 4
    omega
  · have hlt : addr / 2 ^ k < size / 2 ^ k := by
      rw [Nat.div_lt_iff_lt_mul hpos, Nat.mul_comm]
      omega
    rw [if_neg hrest, BitVec.toNat_add, BitVec.toNat_ofNat]
    show addr / 2 ^ k < (size / 2 ^ k % 2 ^ 4 + 0) % 2 ^ 4
    omega

/-- An address is its row, behind what the bank says. -/
theorem addr_eq {addr k : ℕ} (hsize : size ≤ 15 * 2 ^ k) (h : addr < size) :
    addr = (memSizeEn (k + 4) size).toNat / 2 ^ (4 - (bankOf (k + 4) size addr).val) *
        (2 ^ k * 2 ^ (4 - (bankOf (k + 4) size addr).val)) +
      rowOf (k + 4) (bankOf (k + 4) size addr) addr := by
  obtain ⟨hsel, hlt⟩ := selections_lt hsize h
  obtain ⟨_, hhigh, hlow⟩ := pick_spec _ _ hlt
  rw [hsel] at hhigh hlow
  rw [rowOf, bankOf]
  generalize pick (memSizeEn (k + 4) size) (selections (k + 4) addr) = bank at hhigh hlow ⊢
  have hbank := bank.isLt
  have hbits : addressSz (k + 4) - (bank.val + 1) = k + (3 - bank.val) := by
    rw [addressSz]
    omega
  -- the bit of the bank is zero, so the bits below it are the row
  have hrow : addr % 2 ^ (k + (3 - bank.val)) = addr % (2 ^ k * 2 ^ (4 - bank.val)) := by
    have hdvd : 2 ^ (k + (3 - bank.val)) ∣ 2 ^ k * 2 ^ (4 - bank.val) := by
      rw [← Nat.pow_add]
      exact Nat.pow_dvd_pow 2 (by omega)
    rw [← Nat.mod_mod_of_dvd addr hdvd]
    refine Nat.mod_eq_of_lt ?_
    rw [← Nat.mod_mul_right_div_self, Nat.div_lt_iff_lt_mul (Nat.two_pow_pos k)] at hlow
    rw [Nat.pow_add, Nat.mul_comm (2 ^ k) (2 ^ (3 - bank.val))]
    exact hlow
  rw [hbits, hrow, ← hhigh, Nat.div_div_eq_div_mul, Nat.div_add_mod']

variable (addrSz size) in
/-- The bank and the row of an address. -/
def locate (addr : ℕ) : Fin 4 × ℕ :=
  if IsPlain addrSz size then (0, addr)
  else (bankOf addrSz size addr, rowOf addrSz (bankOf addrSz size addr) addr)

variable (addrSz size) in
/-- The rows of the RAMs. -/
def rowsOf (bank : Fin 4) : ℕ :=
  if IsPlain addrSz size then if bank = 0 then size else 0 else bankRows addrSz size bank

/-- **Two addresses** of the memory are never at the same place. -/
theorem locate_injective {a b : ℕ} (ha : InRange addrSz size a) (hb : InRange addrSz size b)
    (h : locate addrSz size a = locate addrSz size b) : a = b := by
  rw [locate, locate] at h
  split at h
  · exact (Prod.mk.inj h).2
  · next hbanks =>
    obtain ⟨k, rfl, hsize⟩ := addrSz_of_banks hbanks
    obtain ⟨hbank, hrow⟩ := Prod.mk.inj h
    rw [addr_eq hsize ha.1, hrow, hbank]
    exact (addr_eq hsize hb.1).symm

/-- **The place of an address** is in a RAM. -/
theorem row_lt {a : ℕ} (ha : InRange addrSz size a) :
    (locate addrSz size a).2 < rowsOf addrSz size (locate addrSz size a).1 := by
  rw [locate, rowsOf]
  split
  · exact ha.1
  · next hbanks =>
    obtain ⟨k, rfl, hsize⟩ := addrSz_of_banks hbanks
    obtain ⟨hen, _, _⟩ := pick_spec _ _ (selections_lt hsize ha.1).2
    have hbank := (bankOf (k + 4) size a).isLt
    have hbits : addressSz (k + 4) - ((bankOf (k + 4) size a).val + 1) =
        k + 4 - ((bankOf (k + 4) size a).val + 1) := by
      rw [addressSz]
      omega
    dsimp only
    rw [bankRows, bankOf, if_pos hen, rowOf, ← bankOf, hbits,
      Nat.pow_div (by omega) (by decide)]
    exact Nat.mod_lt _ (Nat.two_pow_pos _)

end Locate

/-! ### Refinement -/

/-- What a flat memory read is on the wires. -/
def Read (f : Flat α) (data : ℕ → α) : Prop := ∀ a v, f.sampled = some (a, v) → data a = v

section Clock

variable {m : Bram α} {w : Wires α}

@[simp] theorem Bram.rows_clock (readReq : Option ℕ) (write : Option (ℕ × α)) :
    (m.clock readReq write w).rows = m.rows := rfl

theorem Bram.readData_clock {row : ℕ} (hrow : row < m.rows) (write : Option (ℕ × α)) :
    (m.clock (some row) write w).readData = m.ram row := by
  rw [clock, Option.getD_some, if_pos hrow]

theorem Bram.ram_clock_none (readReq : Option ℕ) : (m.clock readReq none w).ram = m.ram := rfl

theorem Bram.ram_clock_some (readReq : Option ℕ) {row : ℕ} (hrow : row < m.rows) (d : α) :
    (m.clock readReq (some (row, d)) w).ram = Function.update m.ram row d := by
  rw [clock, Option.filter_some, if_pos (by simpa using hrow)]
  rfl

end Clock

/-- A `Bram` with a flat memory. -/
structure Agrees (inRange : ℕ → Prop) (m : Bram α) (f : Flat α) : Prop where
  /-- There is a row for each address. -/
  row_lt : ∀ a, inRange a → a < m.rows
  /-- It holds what is in memory. -/
  ram : ∀ a, inRange a → m.ram a = f.mem a
  /-- What was read is on the wires. -/
  readData : Read f fun _ => m.readData

/-- **A `Bram`** is a flat memory. -/
theorem Agrees.clock {inRange : ℕ → Prop} {m : Bram α} {f : Flat α} (h : Agrees inRange m f)
    {i : Input α} (hi : f.Obeys inRange i) (w : Wires α) :
    Agrees inRange (m.clock i.readReq i.write w) (f.cycle i) := by
  refine ⟨h.row_lt, fun a ha => ?_, fun a v hread => ?_⟩
  · show _ = written f.mem i.write a
    cases hwrite : i.write with
    | none => exact h.ram a ha
    | some x =>
      obtain ⟨b, d⟩ := x
      have hb := hi.write b d hwrite
      rw [Bram.ram_clock_some _ (h.row_lt b hb), written]
      by_cases hab : a = b
      · rw [hab, Function.update_self, Function.update_self]
      · rw [Function.update_of_ne hab, Function.update_of_ne hab]
        exact h.ram a ha
  · obtain ⟨b, hreq, hpair⟩ := Option.map_eq_some_iff.mp hread
    obtain ⟨rfl, rfl⟩ := Prod.mk.inj hpair
    have hb := hi.readReq b hreq
    rw [hreq]
    exact (Bram.readData_clock (h.row_lt b hb) _).trans (h.ram b hb)

/-- What is answered. -/
theorem Read.answer {inRange : ℕ → Prop} {f : Flat α} {v : α} (h : Read f fun _ => v)
    {i : Input α} (hi : f.Obeys inRange i) :
    (if i.readRsp = true then some v else none) = f.sampled.map Prod.snd := by
  rw [hi.readRsp]
  cases hs : f.sampled with
  | none => rfl
  | some x => exact congrArg some (h x.1 x.2 hs)

theorem unguarded_implements (inRange : ℕ → Prop) :
    Implements (unguarded α) inRange (Agrees inRange) where
  cycle m _ i w h hi :=
    ⟨m.clock i.readReq i.write w, congrArg (fun r => some (_, r)) (h.readData.answer hi),
      h.clock hi w⟩

section Split

variable {addrSz size : ℕ}

variable (addrSz size) in
/-- Some banks with a flat memory. -/
structure BanksAgree (ram : Fin 4 → Bram α) (f : Flat α) : Prop where
  /-- The banks are those of the size. -/
  rows : ∀ b, (ram b).rows = bankRows addrSz size b
  /-- They hold what is in memory. -/
  contents : ∀ a, InRange addrSz size a →
    (ram (bankOf addrSz size a)).ram (rowOf addrSz (bankOf addrSz size a) a) = f.mem a
  /-- What was read is on the wires of the bank that it was read from. -/
  readData : Read f fun a => (ram (bankOf addrSz size a)).readData

variable (addrSz size) in
/-- The banks that a flat memory's user waits for. -/
def asked (f : Flat α) : List (Fin 4) :=
  (f.sampled.map fun x => bankOf addrSz size x.1).toList

variable (addrSz size) in
/-- The module with a flat memory. -/
def SplitAgrees (s : SplitRam α) (f : Flat α) : Prop :=
  (∃ m, s = .plain m ∧ IsPlain addrSz size ∧ Agrees (InRange addrSz size) m f) ∨
    ∃ ram, s = .banks ram (asked addrSz size f) ∧ ¬ IsPlain addrSz size ∧
      BanksAgree addrSz size ram f

/-- The rows of banks. -/
theorem bankRow_lt (hbanks : ¬ IsPlain addrSz size) {a : ℕ} (ha : InRange addrSz size a) :
    rowOf addrSz (bankOf addrSz size a) a < bankRows addrSz size (bankOf addrSz size a) := by
  have hrow := row_lt ha
  rw [locate, rowsOf, if_neg hbanks, if_neg hbanks] at hrow
  exact hrow

theorem bank_injective (hbanks : ¬ IsPlain addrSz size) {a b : ℕ} (ha : InRange addrSz size a)
    (hb : InRange addrSz size b) (hbank : bankOf addrSz size a = bankOf addrSz size b)
    (hrow : rowOf addrSz (bankOf addrSz size a) a = rowOf addrSz (bankOf addrSz size a) b) :
    a = b := by
  refine locate_injective ha hb ?_
  rw [locate, locate, if_neg hbanks, if_neg hbanks, hrow, hbank]

/-- **The banks** are a flat memory. -/
theorem BanksAgree.clock {ram : Fin 4 → Bram α} {f : Flat α} (h : BanksAgree addrSz size ram f)
    (hbanks : ¬ IsPlain addrSz size) {i : Input α} (hi : f.Obeys (InRange addrSz size) i)
    (w : Fin 4 → Wires α) :
    BanksAgree addrSz size (fun b => (ram b).clock
      ((i.readReq.filter fun addr => bankOf addrSz size addr = b).map (rowOf addrSz b))
      ((i.write.filter fun x => bankOf addrSz size x.1 = b).map fun x => (rowOf addrSz b x.1, x.2))
      (w b)) (f.cycle i) := by
  refine ⟨h.rows, fun a ha => ?_, fun a v hread => ?_⟩
  · show _ = written f.mem i.write a
    cases hwrite : i.write with
    | none => exact h.contents a ha
    | some x =>
      obtain ⟨c, d⟩ := x
      have hc := hi.write c d hwrite
      rw [written]
      by_cases hbank : bankOf addrSz size c = bankOf addrSz size a
      · have hrow := bankRow_lt hbanks hc
        rw [hbank] at hrow
        rw [Option.filter_some, if_pos (by simpa using hbank), Option.map_some,
          Bram.ram_clock_some _ (by rw [h.rows]; exact hrow)]
        by_cases hac : a = c
        · rw [hac, Function.update_self, Function.update_self]
        · have hne : rowOf addrSz (bankOf addrSz size a) a ≠
              rowOf addrSz (bankOf addrSz size a) c :=
            fun heq => hac (bank_injective hbanks ha hc hbank.symm heq)
          rw [Function.update_of_ne hne, Function.update_of_ne hac]
          exact h.contents a ha
      · have hac : a ≠ c := fun heq => hbank (by rw [heq])
        rw [Option.filter_some, if_neg (by simpa using hbank), Option.map_none,
          Bram.ram_clock_none, Function.update_of_ne hac]
        exact h.contents a ha
  · obtain ⟨c, hreq, hpair⟩ := Option.map_eq_some_iff.mp hread
    obtain ⟨rfl, rfl⟩ := Prod.mk.inj hpair
    have hc := hi.readReq c hreq
    dsimp only
    rw [hreq, Option.filter_some, if_pos (by simp), Option.map_some,
      Bram.readData_clock (by rw [h.rows]; exact bankRow_lt hbanks hc)]
    exact h.contents c hc

/-- **The module** is a flat memory, and never holds its user up. -/
theorem split_implements (addrSz size : ℕ) :
    Implements (split α addrSz size) (InRange addrSz size) (SplitAgrees addrSz size) where
  cycle s f i w h hi := by
    rcases h with ⟨m, rfl, hplain, hagrees⟩ | ⟨ram, rfl, hbanks, hagrees⟩
    · exact ⟨.plain (m.clock i.readReq i.write (w 0)),
        congrArg (fun r => some (_, r)) (hagrees.readData.answer hi),
        Or.inl ⟨_, rfl, hplain, hagrees.clock hi _⟩⟩
    · have hnext := hagrees.clock hbanks hi w
      have hrsp := hi.readRsp
      -- at most one read waits, and it is the one that is answered
      have hqueue : ((if i.readRsp = true then (asked addrSz size f).tail
          else asked addrSz size f) ++
          (i.readReq.map (bankOf addrSz size)).toList) = asked addrSz size (f.cycle i) := by
        rw [hrsp, asked, asked, Flat.cycle, Option.map_map]
        cases hs : f.sampled <;> rfl
      have hanswer : (if i.readRsp = true then
          (asked addrSz size f).head?.map fun id => (ram id).readData else none) =
            f.sampled.map Prod.snd := by
        rw [hrsp, asked]
        cases hs : f.sampled with
        | none => rfl
        | some x => exact congrArg some (hagrees.readData x.1 x.2 hs)
      have hguard : (i.readReq.isSome = true → (asked addrSz size f).length < 2) ∧
          (i.readRsp = true → asked addrSz size f ≠ []) := by
        rw [hrsp, asked]
        cases hs : f.sampled <;> simp
      refine ⟨.banks _ (asked addrSz size (f.cycle i)), ?_, Or.inr ⟨_, rfl, hbanks, hnext⟩⟩
      refine (if_pos hguard).trans ?_
      rw [hqueue, hanswer]
      rfl

/-- What is built agrees with a memory of what is in it. -/
theorem splitAgrees_of_built {s : SplitRam α} (h : s.Built addrSz size) :
    SplitAgrees addrSz size s (.start (s.contents addrSz size)) := by
  cases s with
  | plain m =>
    refine Or.inl ⟨m, rfl, h.1, fun a ha => ?_, fun a ha => rfl, fun a v hread => ?_⟩
    · rw [h.2]
      exact ha.1
    · cases hread
  | banks ram ramIdReqQ =>
    obtain ⟨hbanks, hrows, rfl⟩ := h
    refine Or.inr ⟨ram, rfl, hbanks, hrows, fun a ha => rfl, fun a v hread => ?_⟩
    cases hread

/-- **The module of banks** is a flat memory of any size: the map of addresses is one to one into
the rows of the RAMs, and in every run the answers are those of the flat memory, from the banks that
were asked. -/
theorem split_flat (α : Type) (addrSz size : ℕ) :
    (∀ a b, InRange addrSz size a → InRange addrSz size b →
      locate addrSz size a = locate addrSz size b → a = b) ∧
    (∀ a, InRange addrSz size a →
      (locate addrSz size a).2 < rowsOf addrSz size (locate addrSz size a).1) ∧
    ∀ (s : SplitRam α) (l : List (Input α × (Fin 4 → Wires α))), s.Built addrSz size →
      (Flat.start (s.contents addrSz size)).Disciplined (InRange addrSz size) (l.map Prod.fst) →
      ∃ t, (split α addrSz size).run s l =
          some (t, ((Flat.start (s.contents addrSz size)).run (l.map Prod.fst)).2) ∧
        (¬ IsPlain addrSz size → SplitRam.waiting t =
          asked addrSz size ((Flat.start (s.contents addrSz size)).run (l.map Prod.fst)).1) := by
  refine ⟨fun a b => locate_injective, fun a => row_lt, fun s l hs hl => ?_⟩
  obtain ⟨t, hrun, ht⟩ := (split_implements addrSz size).run (splitAgrees_of_built hs) hl
  refine ⟨t, hrun, fun hbanks => ?_⟩
  rcases ht with ⟨_, _, hplain, _⟩ | ⟨ram, rfl, _, _⟩
  · exact absurd hplain hbanks
  · rfl

end Split

end FpgaComponents

end LeapPlatforms
