import LeapPlatforms.Foundation.Tiling
import Mathlib.Data.BitVec

/-!
# The scatter list of a buffer

`bluenoc_read` makes an entry for each page of the user's buffer: the part of the first page from
the buffer on, whole pages, and the part of the last page. It counts the pages in sixty-four bits
and keeps the count in an `int`. A count of more than 4096 is refused, but a count that wraps may
pass.

## Main definitions

* `Paging`, `numPages`, `buildScatterList` — the code
* `pageCount` — how many pages the buffer has
* `Splits` — what is asked of the entries

## Main results

* `tiles_entries` — the entries of a buffer whose count fits
* `splits_iff`
-/

namespace LeapPlatforms

namespace BlueNocPcie

open Tiling

/-- `PAGE_SHIFT`. -/
structure Paging where
  pageShift : ℕ
  pageShift_lt : pageShift < 32

/-- An entry: the index of a page that is pinned, and what of it. -/
structure ScatterEntry where
  page : ℕ
  offset : ℕ
  length : ℕ
  deriving DecidableEq

namespace Paging

variable (K : Paging) (buf count : ℕ)

/-! ### The code -/

/-- `PAGE_SIZE`. -/
def pageSize : ℕ := 2 ^ K.pageShift

/-- `buf & PAGE_MASK`. -/
def firstPage : ℕ := buf / K.pageSize * K.pageSize

def lastPage : ℕ := (buf + count - 1) % 2 ^ 64 / K.pageSize * K.pageSize

/-- `buf & ~PAGE_MASK`, as an `unsigned int`. -/
def offset : ℕ := buf % K.pageSize % 2 ^ 32

/-- The number of pages, computed as an `unsigned long` and kept in an `int`. -/
def numPages : ℤ :=
  (BitVec.ofNat 32
    ((K.lastPage buf count / K.pageSize + 2 ^ 64 - K.firstPage buf / K.pageSize + 1) %
      2 ^ 64)).toInt

def firstPageLen : ℕ :=
  if K.numPages buf count = 1 then count % 2 ^ 32 else (K.pageSize - K.offset buf) % 2 ^ 32

def lastPageLen : ℕ :=
  if (buf + count) % 2 ^ 64 % K.pageSize % 2 ^ 32 = 0 then K.pageSize % 2 ^ 32
  else (buf + count) % 2 ^ 64 % K.pageSize % 2 ^ 32

/-- The entries: the first page, those in the middle, and the last. -/
def scatterEntries : List ScatterEntry :=
  ⟨0, K.offset buf, K.firstPageLen buf count⟩ ::
    ((List.range (K.numPages buf count - 2).toNat).map fun n => ⟨n + 1, 0, K.pageSize⟩) ++
    if 1 < K.numPages buf count then
      [⟨(K.numPages buf count - 1).toNat, 0, K.lastPageLen buf count⟩]
    else []

/-- What lets the entries be built: the buffer is not too large, it is aligned, and the kernel has
the memory for so many pages and pins them. -/
structure Accepted (pins : ℤ → Bool) : Prop where
  numPages_le : K.numPages buf count ≤ 4096
  aligned : K.offset buf % 128 = 0
  pins : pins (K.numPages buf count) = true

instance (pins : ℤ → Bool) : Decidable (K.Accepted buf count pins) :=
  decidable_of_iff (K.numPages buf count ≤ 4096 ∧ K.offset buf % 128 = 0 ∧
    pins (K.numPages buf count) = true) ⟨fun h => ⟨h.1, h.2.1, h.2.2⟩, fun h => ⟨h.1, h.2, h.3⟩⟩

def buildScatterList (pins : ℤ → Bool) : Option (List ScatterEntry) :=
  if K.Accepted buf count pins then some (K.scatterEntries buf count) else none

/-! ### What is asked of it -/

/-- How many pages the buffer has. -/
def pageCount : ℕ := (buf + count - 1) / K.pageSize - buf / K.pageSize + 1

/-- Where the bytes of an entry are. -/
def piece (e : ScatterEntry) : Piece :=
  ⟨K.firstPage buf + e.page * K.pageSize + e.offset, e.length⟩

/-- The entries are the buffer in order, each in a page, and as many as the pages that are pinned.
-/
structure Splits (l : List ScatterEntry) : Prop where
  tiles : Tiles buf (buf + count) (l.map (K.piece buf))
  in_page : ∀ e ∈ l, 0 < e.length ∧ e.offset + e.length ≤ K.pageSize
  pinned : (l.length : ℤ) = K.numPages buf count

/-- A buffer that is not empty and does not wrap. -/
structure IsBuffer : Prop where
  pos : 0 < count
  le : buf + count ≤ 2 ^ 64

variable {K buf count}

theorem pageSize_pos : 0 < K.pageSize := Nat.two_pow_pos _

theorem pageSize_lt : K.pageSize < 2 ^ 32 :=
  Nat.pow_lt_pow_right (by decide) K.pageShift_lt

theorem pageSize_dvd : K.pageSize ∣ 2 ^ 64 := by
  have hlt := K.pageShift_lt
  exact Nat.pow_dvd_pow 2 (by omega)

theorem offset_eq : K.offset buf = buf % K.pageSize :=
  Nat.mod_eq_of_lt ((Nat.mod_lt _ pageSize_pos).trans pageSize_lt)

theorem firstPage_add_offset : K.firstPage buf + K.offset buf = buf := by
  rw [offset_eq]
  exact Nat.div_add_mod' _ _

/-- The count is that of the buffer, but for the `int`. -/
theorem IsBuffer.numPages_eq (h : IsBuffer buf count) :
    K.numPages buf count = (BitVec.ofNat 32 (K.pageCount buf count)).toInt := by
  have hpos := pageSize_pos (K := K)
  have hcount := h.pos
  have hwrap := h.le
  have hmono : buf / K.pageSize ≤ (buf + count - 1) / K.pageSize :=
    Nat.div_le_div_right (by omega)
  have hle := Nat.div_le_self (buf + count - 1) K.pageSize
  rw [numPages, lastPage, firstPage, Nat.mul_div_cancel _ hpos, Nat.mul_div_cancel _ hpos,
    Nat.mod_eq_of_lt (show buf + count - 1 < 2 ^ 64 by omega), pageCount]
  refine congrArg BitVec.toInt (BitVec.eq_of_toNat_eq ?_)
  rw [BitVec.toNat_ofNat, BitVec.toNat_ofNat]
  omega

theorem IsBuffer.numPages_of_le (h : IsBuffer buf count) (hN : K.pageCount buf count ≤ 4096) :
    K.numPages buf count = K.pageCount buf count := by
  have htoNat : (BitVec.ofNat 32 (K.pageCount buf count)).toNat = K.pageCount buf count :=
    Nat.mod_eq_of_lt (by omega)
  rw [h.numPages_eq, BitVec.toInt_eq_toNat_of_lt (by omega), htoNat]

/-- A count that is too large for the guard passes it only if it does not fit an `int`. -/
theorem IsBuffer.pageCount_ge (h : IsBuffer buf count) (hN : 4096 < K.pageCount buf count)
    (hle : K.numPages buf count ≤ 4096) : 2 ^ 31 ≤ K.pageCount buf count := by
  by_contra hlt
  have htoNat : (BitVec.ofNat 32 (K.pageCount buf count)).toNat = K.pageCount buf count :=
    Nat.mod_eq_of_lt (by omega)
  rw [h.numPages_eq, BitVec.toInt_eq_toNat_of_lt (by omega), htoNat] at hle
  omega

/-- The end of the buffer is in its last page. -/
theorem IsBuffer.end_eq (h : IsBuffer buf count) :
    buf + count = K.firstPage buf + (K.pageCount buf count - 1) * K.pageSize +
      ((buf + count - 1) % K.pageSize + 1) := by
  have hmono : buf / K.pageSize ≤ (buf + count - 1) / K.pageSize :=
    Nat.div_le_div_right (by have hpos := h.pos; omega)
  have hlast : K.firstPage buf + (K.pageCount buf count - 1) * K.pageSize =
      (buf + count - 1) / K.pageSize * K.pageSize := by
    rw [firstPage, pageCount, ← Nat.add_mul]
    congr 1
    omega
  have hdiv := Nat.div_add_mod' (buf + count - 1) K.pageSize
  have hpos := h.pos
  omega

theorem IsBuffer.lastPageLen_eq (h : IsBuffer buf count) :
    K.lastPageLen buf count = (buf + count - 1) % K.pageSize + 1 := by
  have hpos := pageSize_pos (K := K)
  have hlt := pageSize_lt (K := K)
  have hcount := h.pos
  have hmod := Nat.mod_lt (buf + count - 1) hpos
  have hrest : (buf + count) % K.pageSize = ((buf + count - 1) % K.pageSize + 1) % K.pageSize := by
    rw [Nat.mod_add_mod]
    congr 1
    omega
  have hsmall : (buf + count) % K.pageSize % 2 ^ 32 = (buf + count) % K.pageSize :=
    Nat.mod_eq_of_lt ((Nat.mod_lt _ hpos).trans hlt)
  rw [lastPageLen, Nat.mod_mod_of_dvd _ pageSize_dvd, hsmall, hrest, Nat.mod_eq_of_lt hlt]
  rcases Nat.lt_or_ge ((buf + count - 1) % K.pageSize + 1) K.pageSize with hless | hfull
  · rw [Nat.mod_eq_of_lt hless, if_neg (Nat.succ_ne_zero _)]
  · have heq : (buf + count - 1) % K.pageSize + 1 = K.pageSize := by omega
    rw [heq, Nat.mod_self, if_pos rfl]

/-- Pages that follow one another. -/
theorem tiles_pages (a n : ℕ) : Tiles a (a + n * K.pageSize)
    ((List.range n).map fun i => ⟨a + i * K.pageSize, K.pageSize⟩) := by
  induction n with
  | zero => rw [Nat.zero_mul]; rfl
  | succ n ih =>
    rw [List.range_succ, List.map_append, List.map_singleton]
    refine ih.append ⟨rfl, pageSize_pos, ?_⟩
    rw [tiles_nil, Nat.succ_mul, Nat.add_assoc]

/-- **The entries** of a buffer whose count fits. -/
theorem IsBuffer.tiles_entries (h : IsBuffer buf count) (hN : K.pageCount buf count ≤ 4096) :
    K.Splits buf count (K.scatterEntries buf count) := by
  have hnum := h.numPages_of_le hN
  have hpos := pageSize_pos (K := K)
  have hlt := pageSize_lt (K := K)
  have hcount := h.pos
  have hend := h.end_eq (K := K)
  have hmod := Nat.mod_lt (buf + count - 1) hpos
  have hfirst : K.firstPage buf + K.offset buf = buf := firstPage_add_offset
  have hoffset : K.offset buf < K.pageSize := by
    rw [offset_eq]
    exact Nat.mod_lt _ hpos
  rcases Nat.lt_or_ge 1 (K.pageCount buf count) with hmany | hone
  · -- several pages
    have hentries : K.scatterEntries buf count =
        ⟨0, K.offset buf, K.pageSize - K.offset buf⟩ ::
          ((List.range (K.pageCount buf count - 2)).map fun n => ⟨n + 1, 0, K.pageSize⟩) ++
          [⟨K.pageCount buf count - 1, 0, (buf + count - 1) % K.pageSize + 1⟩] := by
      rw [scatterEntries, firstPageLen, hnum, if_neg (by omega), if_pos (by omega),
        h.lastPageLen_eq, Nat.mod_eq_of_lt (show K.pageSize - K.offset buf < 2 ^ 32 by omega),
        show ((K.pageCount buf count : ℤ) - 2).toNat = K.pageCount buf count - 2 by omega,
        show ((K.pageCount buf count : ℤ) - 1).toNat = K.pageCount buf count - 1 by omega]
    have hmiddle : ((List.range (K.pageCount buf count - 2)).map fun n =>
        (⟨n + 1, 0, K.pageSize⟩ : ScatterEntry)).map (K.piece buf) =
          (List.range (K.pageCount buf count - 2)).map fun i =>
            ⟨K.firstPage buf + K.pageSize + i * K.pageSize, K.pageSize⟩ := by
      rw [List.map_map]
      refine List.map_congr_left fun i _ => congrArg (Piece.mk · K.pageSize) ?_
      show K.firstPage buf + (i + 1) * K.pageSize + 0 = _
      rw [Nat.succ_mul]
      omega
    have hrange : K.firstPage buf + K.pageSize + (K.pageCount buf count - 2) * K.pageSize =
        K.firstPage buf + (K.pageCount buf count - 1) * K.pageSize := by
      obtain ⟨n, hn⟩ : ∃ n, K.pageCount buf count = n + 2 := ⟨K.pageCount buf count - 2, by omega⟩
      rw [hn, show n + 2 - 1 = n + 1 from rfl, Nat.succ_mul, Nat.add_sub_cancel]
      omega
    rw [hentries]
    refine ⟨?_, fun e he => ?_, ?_⟩
    · rw [List.cons_append, List.map_cons, List.map_append, List.map_singleton, hmiddle]
      refine ⟨?_, ?_, ?_⟩
      · show K.firstPage buf + 0 * K.pageSize + K.offset buf = buf
        rw [Nat.zero_mul]
        omega
      · show 0 < K.pageSize - K.offset buf
        omega
      · have hstart : buf + (K.pageSize - K.offset buf) = K.firstPage buf + K.pageSize := by omega
        have hpages := tiles_pages (K := K) (K.firstPage buf + K.pageSize)
          (K.pageCount buf count - 2)
        rw [hrange] at hpages
        show Tiles (buf + (K.pageSize - K.offset buf)) _ _
        rw [hstart]
        exact hpages.append ⟨rfl, Nat.succ_pos _, hend.symm⟩
    · rw [List.cons_append] at he
      rcases List.mem_cons.mp he with rfl | he
      · exact ⟨by dsimp only; omega, by dsimp only; omega⟩
      · rcases List.mem_append.mp he with he | he
        · obtain ⟨n, -, rfl⟩ := List.mem_map.mp he
          exact ⟨hpos, (Nat.zero_add _).le⟩
        · obtain rfl := List.mem_singleton.mp he
          exact ⟨Nat.succ_pos _, by dsimp only; omega⟩
    · rw [hnum, List.length_append, List.length_cons, List.length_map, List.length_range,
        List.length_singleton]
      omega
  · -- one page
    have hN1 : K.pageCount buf count = 1 := by
      rw [pageCount] at hone ⊢
      omega
    rw [hN1] at hend
    have hentries : K.scatterEntries buf count = [⟨0, K.offset buf, count⟩] := by
      rw [scatterEntries, firstPageLen, hnum, hN1, Nat.cast_one, if_pos rfl, if_neg (by decide),
        Nat.mod_eq_of_lt (show count < 2 ^ 32 by omega)]
      rfl
    rw [hentries]
    refine ⟨⟨?_, hcount, rfl⟩, fun e he => ?_, ?_⟩
    · show K.firstPage buf + 0 * K.pageSize + K.offset buf = buf
      rw [Nat.zero_mul]
      omega
    · obtain rfl := List.mem_singleton.mp he
      exact ⟨hcount, by dsimp only; omega⟩
    · rw [hnum, hN1]
      rfl

/-- Too few entries cannot be those of a large buffer. -/
theorem Splits.le {l : List ScatterEntry} (h : K.Splits buf count l) :
    count ≤ l.length * K.pageSize := by
  have hle := h.tiles.le_add (m := K.pageSize) fun p hp => by
    obtain ⟨e, he, rfl⟩ := List.mem_map.mp hp
    exact (Nat.le_add_left _ _).trans (h.in_page e he).2
  rw [List.length_map] at hle
  omega

/-- A buffer has all the bytes of its pages, but for those of the first and of the last. -/
theorem IsBuffer.le_count (h : IsBuffer buf count) :
    (K.pageCount buf count - 2) * K.pageSize ≤ count := by
  have hend := h.end_eq (K := K)
  have hfirst : K.firstPage buf + K.offset buf = buf := firstPage_add_offset
  have hoffset : K.offset buf < K.pageSize := by
    rw [offset_eq]
    exact Nat.mod_lt _ pageSize_pos
  rcases Nat.lt_or_ge (K.pageCount buf count) 2 with hfew | hmany
  · rw [Nat.sub_eq_zero_of_le hfew.le, Nat.zero_mul]
    exact Nat.zero_le _
  · obtain ⟨n, hn⟩ : ∃ n, K.pageCount buf count = n + 2 := ⟨K.pageCount buf count - 2, by omega⟩
    rw [hn, show n + 2 - 1 = n + 1 from rfl, Nat.succ_mul] at hend
    rw [hn, Nat.add_sub_cancel]
    omega

/-- **The scatter list** is right exactly if the buffer has 4096 pages at most, or is refused. -/
theorem splits_iff (K : Paging) (buf count : ℕ) (pins : ℤ → Bool) (h : IsBuffer buf count) :
    (∀ l, K.buildScatterList buf count pins = some l → K.Splits buf count l) ↔
      K.pageCount buf count ≤ 4096 ∨ ¬ K.Accepted buf count pins := by
  rw [buildScatterList]
  rcases Decidable.em (K.Accepted buf count pins) with haccepted | hrefused
  · rw [if_pos haccepted]
    constructor
    · intro hall
      refine Or.inl (Nat.le_of_not_lt fun hN => ?_)
      have hge := h.pageCount_ge hN haccepted.numPages_le
      have hsplits := hall _ rfl
      have hle := hsplits.le
      have hpinned := hsplits.pinned
      have hfew : (K.scatterEntries buf count).length ≤ 4096 := by
        have hbound := haccepted.numPages_le
        omega
      have hpages := Nat.le_of_mul_le_mul_right (h.le_count.trans hle) pageSize_pos
      omega
    · rintro (hN | hrefused) l hl
      · obtain rfl := Option.some.inj hl
        exact h.tiles_entries hN
      · exact absurd haccepted hrefused
  · rw [if_neg hrefused]
    refine ⟨fun _ => Or.inr hrefused, ?_⟩
    rintro - l ⟨⟩

/-- Pages of 4096 bytes. -/
def fourK : Paging := ⟨12, by decide⟩

theorem splits_iff_twoPages :
    fourK.Splits 4224 8000 [⟨0, 128, 3968⟩, ⟨1, 0, 4032⟩] :=
  (splits_iff fourK 4224 8000 (fun _ => true) ⟨by decide, by decide⟩).2 (Or.inl (by decide)) _ rfl

/-- A page more than `2 ^ 32` passes as one page, of one byte. -/
theorem splits_wrapped :
    IsBuffer 4096 (2 ^ 44 + 1) ∧
      fourK.buildScatterList 4096 (2 ^ 44 + 1) (fun _ => true) = some [⟨0, 0, 1⟩] ∧
      ¬ fourK.Splits 4096 (2 ^ 44 + 1) [⟨0, 0, 1⟩] := by
  refine ⟨⟨by decide, by decide⟩, by decide, fun h => ?_⟩
  have hle := h.le
  exact absurd hle (by decide)

end Paging

end BlueNocPcie

end LeapPlatforms
