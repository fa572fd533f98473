import LeapPlatforms.Foundation.Tiling
import Mathlib.Data.BitVec

/-!
# The commands for a mapped list

Mapping a scatter list for DMA may merge its entries: the first `numDmaXfers` of them are then the
segments. A command packs the address of a segment into forty-eight bits and its length into
fourteen. The loop over a chained list goes on to the end of the list, whatever was merged; the loop
over a flat list goes to the last segment.

## Main definitions

* `Segment`, `Mapped` — what `pci_map_sg` gives
* `dmaCmd`, `endCmd` — the commands
* `described` — how the board reads a command
* `Covers` — what is asked of the commands
* `Mapped.Fits` — when the segments fit the fields

## Main results

* `described_dmaCmd` — what a command says of its segment
* `filterMap_append_eq_iff` — when one function of a list says what another does
* `covers_iff`
-/

namespace LeapPlatforms

namespace BlueNocPcie

open Tiling

/-! ### The code -/

/-- An entry of a mapped list: `sg_dma_address` and `sg_dma_len`. -/
structure Segment where
  addr : BitVec 64
  len : BitVec 32
  deriving DecidableEq

/-- A mapped list. The first `numDmaXfers` entries are the segments. -/
structure Mapped where
  chained : Bool
  entries : List Segment
  numDmaXfers : ℕ
  pos : 0 < numDmaXfers
  le : numDmaXfers ≤ entries.length

def Mapped.segments (m : Mapped) : List Segment := m.entries.take m.numDmaXfers

/-- The entries that the loop goes over: `sg_next` ends at the end of the list, the index at the
last segment. -/
def Mapped.visited (m : Mapped) : List Segment := if m.chained then m.entries else m.segments

/-- The entries behind the segments that the loop goes over. -/
def Mapped.surplus (m : Mapped) : List Segment :=
  if m.chained then m.entries.drop m.numDmaXfers else []

def Segment.outOfRange (s : Segment) : Bool :=
  s.addr != s.addr &&& 0x0000ffffffffffff || 16384 < s.len

/-- The segments are only checked with `DEBUG_DMA`. -/
def Mapped.refused (debugDma : Bool) (m : Mapped) : Bool :=
  debugDma && m.segments.any Segment.outOfRange

/-- The command for a segment. -/
def dmaCmd (last : Bool) (s : Segment) : BitVec 64 :=
  (if last then 1 else 0 : BitVec 64) <<< 63 ||| (s.len.setWidth 64 &&& 0x3fff) <<< 48 |||
    (s.addr &&& 0x0000ffffffffffff)

/-- The end of the list, for a read that was flushed. -/
def endCmd : BitVec 64 := (1 : BitVec 64) <<< 63

/-- The last slot is marked. -/
def markSlots (slotsFree : BitVec 32) (c : BitVec 64) : BitVec 64 :=
  if slotsFree = 1 then c ||| (1 : BitVec 64) <<< 62 else c

def isEnd (c : BitVec 64) : Bool := c.getLsbD 63

/-! ### What the board reads -/

/-- The length that a field stands for: zero is either nothing or the whole. -/
def fieldLen (zeroIsFull : Bool) (code : BitVec 14) : ℕ :=
  if zeroIsFull ∧ code = 0 then 16384 else code.toNat

/-- The bytes that a command describes. -/
def described (zeroIsFull : Bool) (c : BitVec 64) : Piece :=
  ⟨(c.extractLsb' 0 48).toNat, fieldLen zeroIsFull (c.extractLsb' 48 14)⟩

/-- A piece, if it has bytes. -/
def bytes? (p : Piece) : Option Piece := if 0 < p.size then some p else none

namespace Segment

variable (z : Bool) (s : Segment)

/-- The bytes of a segment. -/
def piece : Piece := ⟨s.addr.toNat, s.len.toNat⟩

/-- What is left of them in the fields. -/
def field : Piece := ⟨s.addr.toNat % 2 ^ 48, fieldLen z (s.len.setWidth 14)⟩

/-- The segment fits the fields. -/
def Fits : Prop :=
  if s.len.toNat = 0 then z = false
  else s.addr.toNat < 2 ^ 48 ∧ (s.len.toNat < 16384 ∨ z = true ∧ s.len.toNat = 16384)

/-- A command for the entry describes nothing. -/
def Void : Prop := z = false ∧ s.len.toNat % 16384 = 0

instance : Decidable (s.Fits z) := by unfold Fits; infer_instance

instance : Decidable (s.Void z) := inferInstanceAs (Decidable (_ ∧ _))

end Segment

/-- The commands describe the segments, each once and in order. -/
def Covers (z : Bool) (m : Mapped) (cmds : List (BitVec 64)) : Prop :=
  cmds.filterMap (fun c => bytes? (described z c)) = m.segments.filterMap fun s => bytes? s.piece

instance (z : Bool) (m : Mapped) (cmds : List (BitVec 64)) : Decidable (Covers z m cmds) :=
  inferInstanceAs (Decidable (_ = _))

/-- The segments fit the fields, and what else the loop goes over is void. -/
structure Mapped.Fits (z : Bool) (m : Mapped) : Prop where
  segments : ∀ s ∈ m.segments, s.Fits z
  surplus : ∀ s ∈ m.surplus, s.Void z

theorem Mapped.visited_eq (m : Mapped) : m.visited = m.segments ++ m.surplus := by
  rw [visited, surplus]
  split
  · exact (List.take_append_drop _ _).symm
  · exact (List.append_nil _).symm

theorem Mapped.visited_ne_nil (m : Mapped) : m.visited ≠ [] := by
  rw [m.visited_eq]
  refine List.append_ne_nil_of_left_ne_nil (fun h => ?_) _
  have hlen := congrArg List.length h
  have hpos := m.pos
  have hle := m.le
  rw [segments, List.length_take, List.length_nil] at hlen
  omega

/-! ### A command -/

section Command

variable {z last : Bool} {slotsFree : BitVec 32} {s : Segment} {i : ℕ}

theorem getLsbD_lenMask (h : i < 64) : (0x3fff : BitVec 64).getLsbD i = decide (i < 14) := by
  have hall : ∀ i < 64, (0x3fff : BitVec 64).getLsbD i = decide (i < 14) := by decide
  exact hall i h

theorem getLsbD_addrMask (h : i < 64) :
    (0x0000ffffffffffff : BitVec 64).getLsbD i = decide (i < 48) := by
  have hall : ∀ i < 64, (0x0000ffffffffffff : BitVec 64).getLsbD i = decide (i < 48) := by decide
  exact hall i h

theorem getLsbD_top (h : i < 63) :
    ((if last then 1 else 0 : BitVec 64) <<< 63).getLsbD i = false := by
  rw [BitVec.getLsbD_shiftLeft]
  simp [h]

/-- The bits of a command, below the two at the top. -/
theorem getLsbD_markSlots_dmaCmd (h : i < 62) :
    (markSlots slotsFree (dmaCmd last s)).getLsbD i =
      if i < 48 then s.addr.getLsbD i else s.len.getLsbD (i - 48) := by
  have hcmd : (dmaCmd last s).getLsbD i =
      if i < 48 then s.addr.getLsbD i else s.len.getLsbD (i - 48) := by
    rw [dmaCmd, BitVec.getLsbD_or, BitVec.getLsbD_or, getLsbD_top (by omega),
      BitVec.getLsbD_shiftLeft, BitVec.getLsbD_and, BitVec.getLsbD_and, getLsbD_lenMask (by omega),
      getLsbD_addrMask (by omega), BitVec.getLsbD_setWidth]
    split
    · next hlow => simp [hlow, show i < 64 by omega]
    · next hhigh =>
      simp [hhigh, show i < 64 by omega, show i - 48 < 14 by omega, show i - 48 < 64 by omega]
  rw [markSlots]
  split
  · rw [BitVec.getLsbD_or, hcmd, BitVec.getLsbD_shiftLeft]
    simp [h]
  · exact hcmd

/-- **A command** says of its segment what the fields keep. -/
theorem described_dmaCmd : described z (markSlots slotsFree (dmaCmd last s)) = s.field z := by
  have haddr : (markSlots slotsFree (dmaCmd last s)).extractLsb' 0 48 = s.addr.setWidth 48 := by
    refine BitVec.eq_of_getLsbD_eq fun i hi => ?_
    rw [BitVec.getLsbD_extractLsb', BitVec.getLsbD_setWidth, Nat.zero_add,
      getLsbD_markSlots_dmaCmd (by omega), if_pos hi]
  have hlen : (markSlots slotsFree (dmaCmd last s)).extractLsb' 48 14 = s.len.setWidth 14 := by
    refine BitVec.eq_of_getLsbD_eq fun i hi => ?_
    rw [BitVec.getLsbD_extractLsb', BitVec.getLsbD_setWidth, getLsbD_markSlots_dmaCmd (by omega),
      if_neg (by omega), Nat.add_sub_cancel_left]
  rw [described, haddr, hlen, BitVec.toNat_setWidth]
  rfl

theorem isEnd_dmaCmd : isEnd (markSlots slotsFree (dmaCmd last s)) = last := by
  have hcmd : (dmaCmd last s).getLsbD 63 = last := by
    rw [dmaCmd, BitVec.getLsbD_or, BitVec.getLsbD_or, BitVec.getLsbD_shiftLeft,
      BitVec.getLsbD_shiftLeft, BitVec.getLsbD_and, BitVec.getLsbD_and, getLsbD_lenMask (by omega),
      getLsbD_addrMask (by omega)]
    cases last <;> simp
  rw [isEnd, markSlots]
  split
  · rw [BitVec.getLsbD_or, hcmd]
    exact Bool.or_false _
  · exact hcmd

theorem isEnd_endCmd : isEnd endCmd = true := by decide

end Command

/-! ### A list of commands -/

section FilterMap

variable {α β : Type*} {f g : α → Option β} {l r : List α}

theorem length_filterMap_le (h : ∀ a ∈ l, ∀ b, g a = some b → f a = some b) :
    (l.filterMap g).length ≤ ((l ++ r).filterMap f).length := by
  induction l with
  | nil => exact Nat.zero_le _
  | cons a l ih =>
    have hrest := ih fun b hb => h b (List.mem_cons_of_mem a hb)
    rw [List.cons_append]
    cases hg : g a with
    | none =>
      rw [List.filterMap_cons_none hg]
      cases hf : f a with
      | none =>
        rw [List.filterMap_cons_none hf]
        exact hrest
      | some c =>
        rw [List.filterMap_cons_some hf]
        exact hrest.trans (Nat.le_succ _)
    | some b =>
      rw [List.filterMap_cons_some hg, List.filterMap_cons_some (h a List.mem_cons_self b hg)]
      exact Nat.succ_le_succ hrest

/-- One function of a list says what another says of the first part only if they agree there and it
says nothing of the rest, when whatever it says is right where the other says it. -/
theorem filterMap_append_eq_iff (h : ∀ a b c, f a = some c → g b = some c → f b = some c) :
    (l ++ r).filterMap f = l.filterMap g ↔ (∀ a ∈ l, f a = g a) ∧ ∀ a ∈ r, f a = none := by
  constructor
  · intro heq
    have hright : ∀ a ∈ l, ∀ b, g a = some b → f a = some b := by
      intro a ha b hg
      have hmem : b ∈ (l ++ r).filterMap f := by
        rw [heq]
        exact List.mem_filterMap.mpr ⟨a, ha, hg⟩
      obtain ⟨a', -, hf⟩ := List.mem_filterMap.mp hmem
      exact h a' a b hf hg
    clear h
    induction l with
    | nil => exact ⟨fun a ha => absurd ha List.not_mem_nil, List.filterMap_eq_nil_iff.mp heq⟩
    | cons a l ih =>
      have hrest : ∀ b ∈ l, ∀ c, g b = some c → f b = some c :=
        fun b hb => hright b (List.mem_cons_of_mem a hb)
      rw [List.cons_append] at heq
      have hhead : f a = g a := by
        cases hg : g a with
        | some b => exact hright a List.mem_cons_self b hg
        | none =>
          cases hf : f a with
          | none => rfl
          | some c =>
            -- too much is said: the other one has no more to say than the rest already does
            rw [List.filterMap_cons_some hf, List.filterMap_cons_none hg] at heq
            have hlen := length_filterMap_le (r := r) hrest
            rw [← heq, List.length_cons] at hlen
            omega
      have htail : (l ++ r).filterMap f = l.filterMap g := by
        cases hg : g a with
        | none =>
          rw [List.filterMap_cons_none hg, List.filterMap_cons_none (hhead.trans hg)] at heq
          exact heq
        | some b =>
          rw [List.filterMap_cons_some hg, List.filterMap_cons_some (hhead.trans hg)] at heq
          exact List.tail_eq_of_cons_eq heq
      obtain ⟨hagree, hnone⟩ := ih htail hrest
      exact ⟨List.forall_mem_cons.mpr ⟨hhead, hagree⟩, hnone⟩
  · rintro ⟨hagree, hnone⟩
    rw [List.filterMap_append, List.filterMap_eq_nil_iff.mpr hnone, List.append_nil]
    exact List.filterMap_congr hagree

end FilterMap

section Covers

variable {z : Bool} {m : Mapped} {s t : Segment}

theorem fieldLen_setWidth :
    fieldLen z (s.len.setWidth 14) =
      if z = true ∧ s.len.toNat % 16384 = 0 then 16384 else s.len.toNat % 16384 := by
  have hzero : s.len.setWidth 14 = 0 ↔ s.len.toNat % 16384 = 0 := by
    rw [← BitVec.toNat_inj, BitVec.toNat_setWidth]
    rfl
  rw [fieldLen, BitVec.toNat_setWidth]
  exact if_congr (and_congr_right fun _ => hzero) rfl rfl

theorem bytes?_eq_some {p q : Piece} : bytes? p = some q ↔ p = q ∧ 0 < p.size := by
  rw [bytes?]
  split
  · next hpos => exact ⟨fun h => ⟨Option.some.inj h, hpos⟩, fun h => congrArg some h.1⟩
  · next hneg => exact ⟨fun h => absurd h (Option.some_ne_none _).symm, fun h => absurd h.2 hneg⟩

theorem bytes?_eq_none {p : Piece} : bytes? p = none ↔ p.size = 0 := by
  rw [bytes?]
  split
  · next hpos => exact ⟨fun h => absurd h (Option.some_ne_none _), fun h => absurd hpos (by omega)⟩
  · next hneg => exact ⟨fun _ => by omega, fun _ => rfl⟩

theorem Segment.void_iff : s.Void z ↔ bytes? (s.field z) = none := by
  rw [bytes?_eq_none]
  show _ ↔ fieldLen z (s.len.setWidth 14) = 0
  rw [fieldLen_setWidth, Void]
  cases z with
  | false => simp
  | true =>
    refine ⟨fun h => absurd h.1 (by decide), fun h => ?_⟩
    split at h
    · cases h
    · next hnonzero => exact absurd ⟨rfl, h⟩ hnonzero

/-- The fields keep the bytes of a segment that fits, and of no other. -/
theorem Segment.fits_iff : s.Fits z ↔ bytes? (s.field z) = bytes? s.piece := by
  have hfield := fieldLen_setWidth (z := z) (s := s)
  rw [Fits]
  split
  · next hempty =>
    -- nothing is to be described
    have hnone : bytes? s.piece = none := bytes?_eq_none.mpr hempty
    rw [hnone, ← void_iff, Void, hempty]
    exact ⟨fun h => ⟨h, rfl⟩, fun h => h.1⟩
  · next hbytes =>
    have hsome : bytes? s.piece = some s.piece :=
      bytes?_eq_some.mpr ⟨rfl, Nat.pos_of_ne_zero hbytes⟩
    have hsize : fieldLen z (s.len.setWidth 14) = s.len.toNat ↔
        s.len.toNat < 16384 ∨ z = true ∧ s.len.toNat = 16384 := by
      rw [hfield]
      split
      · next hfull =>
        refine ⟨fun h => Or.inr ⟨hfull.1, h.symm⟩, fun h => ?_⟩
        have hzero := hfull.2
        omega
      · next hless =>
        refine ⟨fun h => Or.inl (by omega), ?_⟩
        rintro (hlt | ⟨hz, hlen⟩)
        · exact Nat.mod_eq_of_lt hlt
        · exact absurd ⟨hz, by rw [hlen]⟩ hless
    rw [hsome, bytes?_eq_some, ← hsize]
    constructor
    · rintro ⟨haddr, hlen⟩
      have heq : s.field z = s.piece := congrArg₂ Piece.mk (Nat.mod_eq_of_lt haddr) hlen
      refine ⟨heq, ?_⟩
      rw [heq]
      exact Nat.pos_of_ne_zero hbytes
    · rintro ⟨heq, -⟩
      have haddr : s.addr.toNat % 2 ^ 48 = s.addr.toNat := congrArg Piece.start heq
      refine ⟨?_, congrArg Piece.size heq⟩
      rw [← haddr]
      exact Nat.mod_lt _ (Nat.two_pow_pos 48)

/-- What some fields keep, those of the segment that it is of do. -/
theorem Segment.field_right {p : Piece} (hs : bytes? (s.field z) = some p)
    (ht : bytes? t.piece = some p) : bytes? (t.field z) = some p := by
  obtain ⟨rfl, hpos⟩ := bytes?_eq_some.mp ht
  obtain ⟨heq, -⟩ := bytes?_eq_some.mp hs
  have haddr : s.addr.toNat % 2 ^ 48 = t.addr.toNat := congrArg Piece.start heq
  have hlen : fieldLen z (s.len.setWidth 14) = t.len.toNat := congrArg Piece.size heq
  have hbytes : t.len.toNat ≠ 0 := Nat.ne_of_gt hpos
  have hfits : t.Fits z := by
    rw [Fits, if_neg hbytes, ← haddr, ← hlen, fieldLen_setWidth]
    refine ⟨Nat.mod_lt _ (Nat.two_pow_pos 48), ?_⟩
    split
    · next hfull => exact Or.inr ⟨hfull.1, rfl⟩
    · exact Or.inl (Nat.mod_lt _ (by decide))
  rw [fits_iff.mp hfits, ht]

/-- **The commands** cover the segments exactly if these fit the fields, and the rest is void. -/
theorem covers_iff {cmds : List (BitVec 64)}
    (h : cmds.map (described z) = m.visited.map (Segment.field z)) :
    Covers z m cmds ↔ m.Fits z := by
  have hcmds : cmds.filterMap (fun c => bytes? (described z c)) =
      (m.segments ++ m.surplus).filterMap fun s => bytes? (s.field z) := by
    have hmapped := congrArg (List.filterMap bytes?) h
    rw [List.filterMap_map, List.filterMap_map, m.visited_eq] at hmapped
    exact hmapped
  rw [Covers, hcmds, filterMap_append_eq_iff fun s t p => Segment.field_right]
  constructor
  · rintro ⟨hsegments, hsurplus⟩
    exact ⟨fun s hs => Segment.fits_iff.mpr (hsegments s hs),
      fun s hs => Segment.void_iff.mpr (hsurplus s hs)⟩
  · rintro ⟨hsegments, hsurplus⟩
    exact ⟨fun s hs => Segment.fits_iff.mp (hsegments s hs),
      fun s hs => Segment.void_iff.mp (hsurplus s hs)⟩

end Covers

end BlueNocPcie

end LeapPlatforms
