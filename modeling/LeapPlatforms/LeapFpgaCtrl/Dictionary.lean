import LeapPlatforms.Foundation.Scan
import Mathlib.Data.Finset.Card
import Mathlib.Data.Finset.Range
import Mathlib.Data.BitVec

/-!
# The dictionary of the configuration file

Strings by strings, in three arrays that grow: a key is looked for slot by slot, by its hash and
then by its text, and a new key takes the first empty slot. A key may be there without a value.

Allocations may fail. When the arrays cannot grow, `dictionary_set` returns an error with some of
the pointers `NULL`, and there is no dictionary any more. When a string cannot be duplicated it
returns success: the value is then missing, or the key is lost and only `n` counts it.

## Main definitions

* `Dictionary`, `dictionaryNew`, `dictionaryGet`, `dictionarySet`, `dictionaryUnset`
* `Dictionary.WellFormed` — what every operation keeps
* `Contents`, `DictionaryOp` — strings by strings, and the operations on them

## Main results

* `WellFormed.set`, `WellFormed.unset`
* `contents_set`, `contents_unset`
* `dictionary_refines` — after any operations
-/

namespace LeapPlatforms

namespace LeapFpgaCtrl

open Scan

/-- `unsigned`. -/
abbrev Unsigned : Type := BitVec 32

/-- `(unsigned)key[i]`, of a character that has a sign. -/
def ofChar (c : Char) : Unsigned := (BitVec.ofNat 8 c.toNat).signExtend 32

/-- One turn of the loop of `dictionary_hash`. -/
def mixChar (hash : Unsigned) (c : Char) : Unsigned :=
  let hash := hash + ofChar c
  let hash := hash + hash <<< 10
  hash ^^^ hash >>> 6

/-- `dictionary_hash` -/
def dictionaryHash (key : Text) : Unsigned :=
  let hash := key.foldl mixChar 0
  let hash := hash + hash <<< 3
  let hash := hash ^^^ hash >>> 11
  hash + hash <<< 15

/-- `dictionary`. The arrays have `size` entries, and nothing is said of the entries after these. -/
structure Dictionary where
  /-- Number of entries in dictionary. -/
  n : ℤ
  /-- Storage size. -/
  size : ℕ
  /-- List of string values, `NULL` where there is none. -/
  val : ℕ → Option Text
  /-- List of string keys, `NULL` in an empty slot. -/
  key : ℕ → Option Text
  /-- List of hash values for keys. -/
  hash : ℕ → Unsigned

/-- `DICTMINSZ` -/
def dictMinSz : ℕ := 128

/-- `dictionary_new` -/
def dictionaryNew (size : ℕ) : Dictionary where
  n := 0
  size := if size < dictMinSz then dictMinSz else size
  val := fun _ => none
  key := fun _ => none
  hash := fun _ => 0

namespace Dictionary

/-- The slot has this key: the hash is compared first. -/
def holds (d : Dictionary) (key : Text) (i : ℕ) : Bool :=
  match d.key i with
  | none => false
  | some k => dictionaryHash key == d.hash i && key == k

/-- The loop that looks for a key. -/
def slotOf (d : Dictionary) (key : Text) : Option ℕ :=
  (List.range d.size).find? (d.holds key)

/-- The loop that looks for an empty slot; `size` when there is none. -/
def emptySlot (d : Dictionary) : ℕ :=
  ((List.range d.size).find? fun i => (d.key i).isNone).getD d.size

/-- The arrays after `mem_double`, which clears what it adds. -/
def double (d : Dictionary) : Dictionary where
  n := d.n
  size := d.size * 2
  val := fun i => if i < d.size then d.val i else none
  key := fun i => if i < d.size then d.key i else none
  hash := fun i => if i < d.size then d.hash i else 0

end Dictionary

/-- `dictionary_get` -/
def dictionaryGet (d : Dictionary) (key : Text) (dflt : Option Text) : Option Text :=
  match d.slotOf key with
  | some i => d.val i
  | none => dflt

/-- Which of the allocations of one call succeed. -/
structure Memory where
  /-- All three of `mem_double`. -/
  grow : Bool
  /-- `xstrdup(key)`. -/
  key : Bool
  /-- `xstrdup(val)`. -/
  val : Bool
  deriving DecidableEq

/-- `xstrdup` -/
def xstrdup (success : Bool) (s : Text) : Option Text :=
  if success then some s else none

/-- The end of `dictionary_set`: a new key in the first empty slot. -/
def Dictionary.add (d : Dictionary) (m : Memory) (key : Text) (val : Option Text) : Dictionary where
  n := d.n + 1
  size := d.size
  val := Function.update d.val d.emptySlot (val.bind (xstrdup m.val))
  key := Function.update d.key d.emptySlot (xstrdup m.key key)
  hash := Function.update d.hash d.emptySlot (dictionaryHash key)

/-- `dictionary_set`: nothing when it returns an error, and the dictionary after it returns `0`. -/
def dictionarySet (m : Memory) (key : Text) (val : Option Text) (d : Dictionary) :
    Option Dictionary :=
  match if 0 < d.n then d.slotOf key else none with
  | some i => some { d with val := Function.update d.val i (val.bind (xstrdup m.val)) }
  | none =>
    if d.n = d.size then
      if m.grow then some (d.double.add m key val) else none
    else some (d.add m key val)

/-- `dictionary_unset` -/
def dictionaryUnset (key : Text) (d : Dictionary) : Dictionary :=
  match d.slotOf key with
  | none => d
  | some i =>
    { d with
      n := d.n - 1
      key := Function.update d.key i none
      val := Function.update d.val i none
      hash := Function.update d.hash i 0 }

/-- The keys and values that the loops over a dictionary visit, in their order. -/
def Dictionary.entries (d : Dictionary) : List (Text × Option Text) :=
  (List.range d.size).filterMap fun i => (d.key i).map fun k => (k, d.val i)

/-- `%20s` -/
def padLeft (width : ℕ) (s : Text) : Text := List.replicate (width - s.length) ' ' ++ s

/-- `dictionary_dump` -/
def dictionaryDump (d : Dictionary) : Text :=
  if d.n < 1 then "empty dictionary\n".toList
  else d.entries.flatMap fun e =>
    padLeft 20 e.1 ++ "\t[".toList ++ e.2.getD "UNDEF".toList ++ "]\n".toList

/-! ### What the operations keep -/

namespace Dictionary

/-- The slots that are not empty. -/
def used (d : Dictionary) : Finset ℕ := (Finset.range d.size).filter fun i => (d.key i).isSome

/-- The loops find every key, there is room for the next one, and no key is there twice. -/
structure WellFormed (d : Dictionary) : Prop where
  hashed : ∀ i k, d.key i = some k → d.hash i = dictionaryHash k
  distinct : ∀ i < d.size, ∀ j < d.size, ∀ k, d.key i = some k → d.key j = some k → i = j
  used_le : (d.used.card : ℤ) ≤ d.n
  n_le : d.n ≤ d.size
  minSz_le : dictMinSz ≤ d.size

variable {d : Dictionary}

theorem mem_used {i : ℕ} : i ∈ d.used ↔ i < d.size ∧ ∃ k, d.key i = some k := by
  rw [used, Finset.mem_filter, Finset.mem_range, Option.isSome_iff_exists]

theorem holds_iff (h : d.WellFormed) {key : Text} {i : ℕ} :
    d.holds key i = true ↔ d.key i = some key := by
  rw [holds]
  constructor
  · intro hholds
    split at hholds
    · cases hholds
    · next k hk =>
      rw [Bool.and_eq_true, beq_iff_eq, beq_iff_eq] at hholds
      rw [hk, hholds.2]
  · intro hkey
    simp [hkey, h.hashed i key hkey]

theorem slotOf_eq_some (h : d.WellFormed) {key : Text} {i : ℕ} :
    d.slotOf key = some i ↔ i < d.size ∧ d.key i = some key := by
  rw [slotOf, List.find?_range_eq_some, holds_iff h, List.mem_range]
  constructor
  · rintro ⟨hkey, hi, -⟩
    exact ⟨hi, hkey⟩
  · rintro ⟨hi, hkey⟩
    refine ⟨hkey, hi, ?_⟩
    intro j hj
    rw [Bool.not_eq_true', Bool.eq_false_iff, ne_eq, holds_iff h]
    intro hkey'
    exact hj.ne (h.distinct j (hj.trans hi) i hi key hkey' hkey)

theorem slotOf_eq_none (h : d.WellFormed) {key : Text} :
    d.slotOf key = none ↔ ∀ i < d.size, d.key i ≠ some key := by
  rw [Option.eq_none_iff_forall_ne_some]
  constructor
  · intro hnone i hi hkey
    exact hnone i ((slotOf_eq_some h).mpr ⟨hi, hkey⟩)
  · intro hnone i hslot
    obtain ⟨hi, hkey⟩ := (slotOf_eq_some h).mp hslot
    exact hnone i hi hkey

/-- The search of `dictionary_set` is not made when there are no entries, and would then find
nothing. -/
theorem slotOf_of_pos (h : d.WellFormed) (key : Text) :
    (if 0 < d.n then d.slotOf key else none) = d.slotOf key := by
  split
  · rfl
  · next hn =>
    refine ((slotOf_eq_none h).mpr ?_).symm
    intro i hi hkey
    have hmem : i ∈ d.used := mem_used.mpr ⟨hi, key, hkey⟩
    have hcard : 0 < d.used.card := Finset.card_pos.mpr ⟨i, hmem⟩
    have hle := h.used_le
    omega

/-- While fewer entries than slots are counted, the loop finds an empty slot. -/
theorem emptySlot_spec (hused : (d.used.card : ℤ) ≤ d.n) (hn : d.n < d.size) :
    d.emptySlot < d.size ∧ d.key d.emptySlot = none := by
  rw [emptySlot]
  cases hfind : (List.range d.size).find? fun i => (d.key i).isNone with
  | some i =>
    rw [List.find?_range_eq_some] at hfind
    exact ⟨List.mem_range.mp hfind.2.1, Option.isNone_iff_eq_none.mp hfind.1⟩
  | none =>
    rw [List.find?_range_eq_none] at hfind
    have hall : d.used = Finset.range d.size := by
      refine Finset.filter_true_of_mem ?_
      intro i hi
      have hkey := hfind i (Finset.mem_range.mp hi)
      rwa [Bool.not_eq_true', Option.isNone_eq_false_iff] at hkey
    rw [hall, Finset.card_range] at hused
    omega

theorem wellFormed_new (size : ℕ) : (dictionaryNew size).WellFormed where
  hashed := by
    intro i k hkey
    cases hkey
  distinct := by
    intro i hi j hj k hkey
    cases hkey
  used_le := by
    have hused : (dictionaryNew size).used = ∅ := by
      refine Finset.filter_false_of_mem ?_
      intro i hi
      exact Bool.false_ne_true
    rw [hused, Finset.card_empty]
    exact le_refl 0
  n_le := Int.natCast_nonneg _
  minSz_le := by
    simp only [dictionaryNew]
    split <;> omega

/-- Twice the slots, the new ones empty. -/
theorem WellFormed.double (h : d.WellFormed) : d.double.WellFormed := by
  have hkey : ∀ i k, d.double.key i = some k → i < d.size ∧ d.key i = some k := by
    intro i k hk
    simp only [Dictionary.double] at hk
    split at hk
    · next hi => exact ⟨hi, hk⟩
    · cases hk
  have hused : d.double.used ⊆ d.used := by
    intro i hi
    obtain ⟨-, k, hk⟩ := mem_used.mp hi
    exact mem_used.mpr ⟨(hkey i k hk).1, k, (hkey i k hk).2⟩
  have hcard := Finset.card_le_card hused
  have hle := h.used_le
  have hn := h.n_le
  have hmin := h.minSz_le
  refine ⟨?_, ?_, ?_, ?_, ?_⟩
  · intro i k hk
    simp only [Dictionary.double, if_pos (hkey i k hk).1]
    exact h.hashed i k (hkey i k hk).2
  · intro i _ j _ k hi hj
    exact h.distinct i (hkey i k hi).1 j (hkey j k hj).1 k (hkey i k hi).2 (hkey j k hj).2
  · simp only [Dictionary.double] at hcard ⊢
    omega
  · simp only [Dictionary.double]
    omega
  · simp only [Dictionary.double]
    omega

theorem slotOf_double (h : d.WellFormed) (key : Text) : d.double.slotOf key = d.slotOf key := by
  refine Option.ext fun i => ?_
  rw [slotOf_eq_some h, slotOf_eq_some h.double]
  have hsize : i < d.size → i < d.size * 2 := by omega
  simp only [Dictionary.double]
  constructor
  · rintro ⟨-, hkey⟩
    split at hkey
    · next hi => exact ⟨hi, hkey⟩
    · cases hkey
  · rintro ⟨hi, hkey⟩
    rw [if_pos hi]
    exact ⟨hsize hi, hkey⟩

/-- A key that is not there yet, with room for it. -/
theorem WellFormed.add (h : d.WellFormed) (hn : d.n < d.size) (m : Memory) {key : Text}
    (hnone : d.slotOf key = none) (val : Option Text) : (d.add m key val).WellFormed := by
  obtain ⟨hslot, hempty⟩ := emptySlot_spec h.used_le hn
  have hnew := (slotOf_eq_none h).mp hnone
  have hkeys : ∀ i k, (d.add m key val).key i = some k →
      i = d.emptySlot ∧ k = key ∨ i ≠ d.emptySlot ∧ d.key i = some k := by
    intro i k hk
    by_cases hi : i = d.emptySlot
    · subst hi
      simp only [Dictionary.add, Function.update_self, xstrdup] at hk
      split at hk
      · exact .inl ⟨rfl, (Option.some.inj hk).symm⟩
      · cases hk
    · simp only [Dictionary.add, Function.update_of_ne hi] at hk
      exact .inr ⟨hi, hk⟩
  refine ⟨?_, ?_, ?_, ?_, h.minSz_le⟩
  · intro i k hk
    rcases hkeys i k hk with ⟨rfl, rfl⟩ | ⟨hi, hk⟩
    · exact Function.update_self ..
    · exact (Function.update_of_ne hi _ _).trans (h.hashed i k hk)
  · intro i hi j hj k hki hkj
    rcases hkeys i k hki with ⟨rfl, rfl⟩ | ⟨-, hki'⟩
    · rcases hkeys j k hkj with ⟨rfl, -⟩ | ⟨-, hkj'⟩
      · rfl
      · exact absurd hkj' (hnew j hj)
    · rcases hkeys j k hkj with ⟨rfl, rfl⟩ | ⟨-, hkj'⟩
      · exact absurd hki' (hnew i hi)
      · exact h.distinct i hi j hj k hki' hkj'
  · have hsub : (d.add m key val).used ⊆ insert d.emptySlot d.used := by
      intro i hi
      obtain ⟨hi, k, hk⟩ := mem_used.mp hi
      rcases hkeys i k hk with ⟨rfl, -⟩ | ⟨-, hk⟩
      · exact Finset.mem_insert_self ..
      · exact Finset.mem_insert_of_mem (mem_used.mpr ⟨hi, k, hk⟩)
    have hcard := (Finset.card_le_card hsub).trans (Finset.card_insert_le ..)
    have hle := h.used_le
    simp only [Dictionary.add] at hcard ⊢
    omega
  · exact hn

theorem WellFormed.setVal (h : d.WellFormed) (val : ℕ → Option Text) :
    { d with val := val }.WellFormed :=
  ⟨h.hashed, h.distinct, h.used_le, h.n_le, h.minSz_le⟩

/-- Nothing changes but a slot that is emptied. -/
theorem WellFormed.remove (h : d.WellFormed) {i : ℕ} (hi : i ∈ d.used) (val : ℕ → Option Text) :
    { d with
      n := d.n - 1
      key := Function.update d.key i none
      val := val
      hash := Function.update d.hash i 0 }.WellFormed := by
  have hkeys : ∀ j k, Function.update d.key i none j = some k → j ≠ i ∧ d.key j = some k := by
    intro j k hk
    by_cases hj : j = i
    · rw [hj, Function.update_self] at hk
      cases hk
    · rw [Function.update_of_ne hj] at hk
      exact ⟨hj, hk⟩
  have hcard : 0 < d.used.card := Finset.card_pos.mpr ⟨i, hi⟩
  have hle := h.used_le
  have hn := h.n_le
  refine ⟨?_, ?_, ?_, ?_, h.minSz_le⟩
  · intro j k hk
    obtain ⟨hj, hk⟩ := hkeys j k hk
    exact (Function.update_of_ne hj _ _).trans (h.hashed j k hk)
  · intro j hj j' hj' k hk hk'
    exact h.distinct j hj j' hj' k (hkeys j k hk).2 (hkeys j' k hk').2
  · have hsub : Dictionary.used { d with
        n := d.n - 1
        key := Function.update d.key i none
        val := val
        hash := Function.update d.hash i 0 } ⊆ d.used.erase i := by
      intro j hj
      obtain ⟨hj, k, hk⟩ := mem_used.mp hj
      obtain ⟨hne, hk⟩ := hkeys j k hk
      exact Finset.mem_erase.mpr ⟨hne, mem_used.mpr ⟨hj, k, hk⟩⟩
    have hle' := Finset.card_le_card hsub
    rw [Finset.card_erase_of_mem hi] at hle'
    simp only
    omega
  · simp only
    omega

/-- `dictionary_set` keeps the invariant. -/
theorem WellFormed.set (h : d.WellFormed) {m : Memory} {key : Text} {val : Option Text}
    {d' : Dictionary} (hset : dictionarySet m key val d = some d') : d'.WellFormed := by
  rw [dictionarySet, slotOf_of_pos h] at hset
  cases hslot : d.slotOf key with
  | some i =>
    rw [hslot] at hset
    obtain rfl := Option.some.inj hset
    exact h.setVal _
  | none =>
    simp only [hslot] at hset
    have hmin := h.minSz_le
    have hn := h.n_le
    split at hset
    · next hfull =>
      split at hset
      · obtain rfl := Option.some.inj hset
        refine h.double.add ?_ m ((slotOf_double h key).trans hslot) val
        simp only [Dictionary.double, dictMinSz] at hmin ⊢
        omega
      · cases hset
    · obtain rfl := Option.some.inj hset
      exact h.add (by omega) m hslot val

/-- `dictionary_unset` keeps the invariant. -/
theorem WellFormed.unset (h : d.WellFormed) (key : Text) : (dictionaryUnset key d).WellFormed := by
  rw [dictionaryUnset]
  cases hslot : d.slotOf key with
  | none => exact h
  | some i =>
    obtain ⟨hi, hkey⟩ := (slotOf_eq_some h).mp hslot
    exact h.remove (mem_used.mpr ⟨hi, key, hkey⟩) _

end Dictionary

/-! ### Strings by strings -/

/-- What a dictionary is for: the value of a key that is there. -/
abbrev Contents : Type := Text → Option (Option Text)

/-- A key is set. One whose text is not duplicated is there only if it was before. -/
def Contents.set (m : Memory) (key : Text) (val : Option Text) (c : Contents) : Contents :=
  if c key = none ∧ m.key = false then c
  else Function.update c key (some (val.bind (xstrdup m.val)))

/-- A key is removed. -/
def Contents.unset (key : Text) (c : Contents) : Contents := Function.update c key none

namespace Dictionary

/-- The strings by strings that a dictionary is. -/
def contents (d : Dictionary) : Contents := fun key => (d.slotOf key).map d.val

variable {d : Dictionary}

theorem contents_eq_some (h : d.WellFormed) {key : Text} {v : Option Text} :
    d.contents key = some v ↔ ∃ i < d.size, d.key i = some key ∧ d.val i = v := by
  rw [contents, Option.map_eq_some_iff]
  constructor
  · rintro ⟨i, hslot, hval⟩
    obtain ⟨hi, hkey⟩ := (slotOf_eq_some h).mp hslot
    exact ⟨i, hi, hkey, hval⟩
  · rintro ⟨i, hi, hkey, hval⟩
    exact ⟨i, (slotOf_eq_some h).mpr ⟨hi, hkey⟩, hval⟩

theorem contents_eq_none {key : Text} : d.contents key = none ↔ d.slotOf key = none :=
  Option.map_eq_none_iff

theorem contents_new (size : ℕ) : (dictionaryNew size).contents = fun _ => none := by
  funext key
  refine contents_eq_none.mpr ((slotOf_eq_none (wellFormed_new size)).mpr ?_)
  intro i _
  exact Option.some_ne_none key |>.symm

theorem get_eq (d : Dictionary) (key : Text) (dflt : Option Text) :
    dictionaryGet d key dflt = (d.contents key).getD dflt := by
  rw [dictionaryGet, contents]
  cases d.slotOf key <;> rfl

theorem contents_double (h : d.WellFormed) : d.double.contents = d.contents := by
  funext key
  rw [contents, contents, slotOf_double h]
  cases hslot : d.slotOf key with
  | none => rfl
  | some i =>
    have hi := ((slotOf_eq_some h).mp hslot).1
    simp only [Option.map_some, Dictionary.double, if_pos hi]

theorem contents_add (h : d.WellFormed) (hn : d.n < d.size) (m : Memory) {key : Text}
    (hnone : d.slotOf key = none) (val : Option Text) :
    (d.add m key val).contents = d.contents.set m key val := by
  obtain ⟨hslot, hempty⟩ := emptySlot_spec h.used_le hn
  have hadd := h.add hn m hnone val
  have hother : ∀ k v, k ≠ key ∨ m.key = false →
      ((d.add m key val).contents k = some v ↔ d.contents k = some v) := by
    intro k v hk
    rw [contents_eq_some hadd, contents_eq_some h]
    refine exists_congr fun i => and_congr_right fun _ => ?_
    by_cases hi : i = d.emptySlot
    · have hne : xstrdup m.key key ≠ some k := by
        rw [xstrdup]
        rcases hk with hk | hk
        · split
          · exact fun heq => hk (Option.some.inj heq).symm
          · exact (Option.some_ne_none k).symm
        · rw [hk, if_neg Bool.false_ne_true]
          exact (Option.some_ne_none k).symm
      simp only [Dictionary.add, hi, Function.update_self, hempty, hne, false_and,
        (Option.some_ne_none k).symm]
    · simp only [Dictionary.add, Function.update_of_ne hi]
  rw [Contents.set]
  split
  · next hlost =>
    funext k
    exact Option.ext fun v => hother k v (.inr hlost.2)
  · next hkept =>
    have hkey : m.key = true := by
      rw [contents_eq_none, and_iff_right hnone, Bool.not_eq_false] at hkept
      exact hkept
    funext k
    by_cases hk : k = key
    · subst hk
      rw [Function.update_self, contents_eq_some hadd]
      refine ⟨d.emptySlot, hslot, ?_, ?_⟩
      · simp only [Dictionary.add, Function.update_self, xstrdup, hkey, if_true]
      · simp only [Dictionary.add, Function.update_self]
    · rw [Function.update_of_ne hk]
      exact Option.ext fun v => hother k v (.inl hk)

/-- `dictionary_set` sets the key. -/
theorem contents_set (h : d.WellFormed) {m : Memory} {key : Text} {val : Option Text}
    {d' : Dictionary} (hset : dictionarySet m key val d = some d') :
    d'.contents = d.contents.set m key val := by
  rw [dictionarySet, slotOf_of_pos h] at hset
  cases hslot : d.slotOf key with
  | some i =>
    rw [hslot] at hset
    obtain rfl := Option.some.inj hset
    have hthere : d.contents key ≠ none := by
      rw [ne_eq, contents_eq_none, hslot]
      exact Option.some_ne_none i
    rw [Contents.set, if_neg fun hlost => hthere hlost.1]
    obtain ⟨hi, hkey⟩ := (slotOf_eq_some h).mp hslot
    funext k
    by_cases hk : k = key
    · rw [hk, Function.update_self, contents_eq_some (h.setVal _)]
      exact ⟨i, hi, hkey, Function.update_self ..⟩
    · rw [Function.update_of_ne hk]
      refine Option.ext fun v => ?_
      rw [contents_eq_some (h.setVal _), contents_eq_some h]
      refine exists_congr fun j => and_congr_right fun hj => and_congr_right fun hkey' => ?_
      have hne : j ≠ i := by
        rintro rfl
        exact hk (Option.some.inj (hkey'.symm.trans hkey))
      simp only [Function.update_of_ne hne]
  | none =>
    simp only [hslot] at hset
    have hmin := h.minSz_le
    have hn := h.n_le
    split at hset
    · next hfull =>
      split at hset
      · obtain rfl := Option.some.inj hset
        rw [contents_add h.double _ m ((slotOf_double h key).trans hslot), contents_double h]
        simp only [Dictionary.double, dictMinSz] at hmin ⊢
        omega
      · cases hset
    · obtain rfl := Option.some.inj hset
      exact contents_add h (by omega) m hslot val

/-- `dictionary_unset` removes the key. -/
theorem contents_unset (h : d.WellFormed) (key : Text) :
    (dictionaryUnset key d).contents = d.contents.unset key := by
  have hunset := h.unset key
  rw [Contents.unset]
  rw [dictionaryUnset] at hunset ⊢
  cases hslot : d.slotOf key with
  | none =>
    refine (Function.update_eq_self_iff.mpr ?_).symm
    exact (contents_eq_none.mpr hslot).symm
  | some i =>
    obtain ⟨hi, hkey⟩ := (slotOf_eq_some h).mp hslot
    simp only [hslot] at hunset ⊢
    funext k
    refine Option.ext fun v => ?_
    rw [contents_eq_some hunset]
    by_cases hk : k = key
    · rw [hk, Function.update_self]
      refine iff_of_false ?_ (Option.some_ne_none v).symm
      rintro ⟨j, hj, hkey', -⟩
      by_cases hji : j = i
      · simp only [hji, Function.update_self] at hkey'
        cases hkey'
      · simp only [Function.update_of_ne hji] at hkey'
        exact hji (h.distinct j hj i hi key hkey' hkey)
    · rw [Function.update_of_ne hk, contents_eq_some h]
      refine exists_congr fun j => and_congr_right fun _ => ?_
      by_cases hji : j = i
      · simp [hji, hkey, Ne.symm hk]
      · simp only [Function.update_of_ne hji]

/-! ### The entries -/

theorem mem_entries (h : d.WellFormed) {k : Text} {v : Option Text} :
    (k, v) ∈ d.entries ↔ d.contents k = some v := by
  rw [contents_eq_some h, entries, List.mem_filterMap]
  refine exists_congr fun i => ?_
  rw [List.mem_range, Option.map_eq_some_iff]
  refine and_congr_right fun _ => ⟨?_, ?_⟩
  · rintro ⟨k', hk', heq⟩
    obtain ⟨rfl, rfl⟩ := Prod.mk.inj heq
    exact ⟨hk', rfl⟩
  · rintro ⟨hk, rfl⟩
    exact ⟨k, hk, rfl⟩

/-- No key is visited twice. -/
theorem nodup_entries (h : d.WellFormed) : (d.entries.map Prod.fst).Nodup := by
  have hkeys : d.entries.map Prod.fst = (List.range d.size).filterMap d.key := by
    rw [entries, List.map_filterMap]
    refine List.filterMap_congr ?_
    intro i _
    cases d.key i <;> rfl
  rw [hkeys]
  have hrange : (List.range d.size).Pairwise fun i j => i < d.size ∧ j < d.size ∧ i ≠ j := by
    refine List.Pairwise.imp_of_mem ?_ List.nodup_range
    intro i j hi hj hne
    exact ⟨List.mem_range.mp hi, List.mem_range.mp hj, hne⟩
  refine hrange.filterMap _ ?_
  rintro i j ⟨hi, hj, hne⟩ k hk k' hk' rfl
  exact hne (h.distinct i hi j hj k hk hk')

theorem length_entries (d : Dictionary) : d.entries.length = d.used.card := by
  have hlength :
      d.entries.length = ((List.range d.size).filter fun i => (d.key i).isSome).length := by
    rw [entries, List.length_filterMap_eq_countP, List.countP_eq_length_filter]
    simp only [Option.isSome_map]
  have hused : d.used = ((List.range d.size).filter fun i => (d.key i).isSome).toFinset := by
    ext i
    simp [used]
  rw [hlength, hused, List.toFinset_card_of_nodup (List.nodup_range.filter _)]

end Dictionary

/-! ### Any operations -/

/-- An operation on a dictionary that changes it. -/
inductive DictionaryOp
  | set (m : Memory) (key : Text) (val : Option Text)
  | unset (key : Text)

namespace DictionaryOp

/-- The operation. -/
def run (d : Dictionary) : DictionaryOp → Option Dictionary
  | set m key val => dictionarySet m key val d
  | unset key => some (dictionaryUnset key d)

/-- What it does to strings by strings. -/
def apply (c : Contents) : DictionaryOp → Contents
  | set m key val => c.set m key val
  | unset key => c.unset key

/-- The operation that fails when the arrays have to grow. -/
def mayFail : DictionaryOp → Bool
  | set m _ _ => !m.grow
  | unset _ => false

/-- One for `dictionary_set`. -/
def sets : DictionaryOp → ℕ
  | set _ _ _ => 1
  | unset _ => 0

end DictionaryOp

/-- The room that a dictionary takes: it is not larger than it was made, or than twice the number
of times a key was set. -/
structure Dictionary.Bounded (size sets : ℕ) (d : Dictionary) : Prop where
  n_le : d.n ≤ sets
  size_le : d.size ≤ max (max size dictMinSz) (2 * sets)

section Run

open Dictionary

variable {d d' : Dictionary} {op : DictionaryOp} {size sets : ℕ}

theorem run_eq_none (h : DictionaryOp.run d op = none) : op.mayFail = true := by
  cases op with
  | set m key val =>
    simp only [DictionaryOp.run, dictionarySet] at h
    split at h
    · cases h
    · split at h
      · split at h
        · cases h
        · next hgrow =>
          rw [Bool.not_eq_true] at hgrow
          rw [DictionaryOp.mayFail, hgrow, Bool.not_false]
      · cases h
  | unset key => cases h

theorem run_step (h : d.WellFormed) (hrun : DictionaryOp.run d op = some d') :
    d'.WellFormed ∧ d'.contents = op.apply d.contents := by
  cases op with
  | set m key val => exact ⟨h.set hrun, contents_set h hrun⟩
  | unset key =>
    obtain rfl := Option.some.inj hrun
    exact ⟨h.unset key, contents_unset h key⟩

theorem Dictionary.Bounded.step (h : d.WellFormed) (hb : d.Bounded size sets)
    (hrun : DictionaryOp.run d op = some d') : d'.Bounded size (sets + op.sets) := by
  have hn := hb.n_le
  have hsize := hb.size_le
  cases op with
  | set m key val =>
    simp only [DictionaryOp.run, dictionarySet, slotOf_of_pos h] at hrun
    split at hrun
    · obtain rfl := Option.some.inj hrun
      constructor <;> simp only [DictionaryOp.sets] <;> omega
    · split at hrun
      · next hfull =>
        split at hrun
        · obtain rfl := Option.some.inj hrun
          constructor <;> simp only [DictionaryOp.sets, Dictionary.add, Dictionary.double] <;> omega
        · cases hrun
      · obtain rfl := Option.some.inj hrun
        constructor <;> simp only [DictionaryOp.sets, Dictionary.add] <;> omega
  | unset key =>
    obtain rfl := Option.some.inj hrun
    rw [dictionaryUnset]
    cases d.slotOf key with
    | none => exact ⟨hn, hsize⟩
    | some i =>
      constructor <;> simp only [DictionaryOp.sets] <;> omega

theorem run_ops (h : d.WellFormed) (hb : d.Bounded size sets) (ops : List DictionaryOp) :
    (ops.foldlM DictionaryOp.run d = none → ∃ op ∈ ops, op.mayFail = true) ∧
      ∀ d', ops.foldlM DictionaryOp.run d = some d' →
        d'.WellFormed ∧ d'.contents = ops.foldl DictionaryOp.apply d.contents ∧
          d'.Bounded size (sets + (ops.map DictionaryOp.sets).sum) := by
  induction ops generalizing d sets with
  | nil =>
    constructor
    · intro hnone
      cases hnone
    · intro d' hrun
      obtain rfl := Option.some.inj hrun
      exact ⟨h, rfl, hb⟩
  | cons op ops ih =>
    rw [List.foldlM_cons]
    cases hrun : DictionaryOp.run d op with
    | none =>
      refine ⟨fun _ => ⟨op, List.mem_cons_self, run_eq_none hrun⟩, ?_⟩
      intro d' hrest
      cases hrest
    | some d₁ =>
      obtain ⟨hwf, hcontents⟩ := run_step h hrun
      obtain ⟨hnone, hsome⟩ := ih hwf (hb.step h hrun)
      constructor
      · intro hrest
        obtain ⟨op', hmem, hfail⟩ := hnone hrest
        exact ⟨op', List.mem_cons_of_mem _ hmem, hfail⟩
      · intro d' hrest
        rw [List.map_cons, List.sum_cons, ← Nat.add_assoc, List.foldl_cons, ← hcontents]
        exact hsome d' hrest

/-- **The dictionary is strings by strings.** After any operations, and whichever allocations of
strings failed, looking a key up gives what was last set under it; the loops over the dictionary
visit each key that is there once. It counts no more entries than it has room for, and the room is
bounded. An operation returns an error only if the arrays could not grow. -/
theorem dictionary_refines (size : ℕ) (ops : List DictionaryOp) :
    (ops.foldlM DictionaryOp.run (dictionaryNew size) = none → ∃ op ∈ ops, op.mayFail = true) ∧
      ∀ d, ops.foldlM DictionaryOp.run (dictionaryNew size) = some d →
        (∀ key dflt, dictionaryGet d key dflt =
          (ops.foldl DictionaryOp.apply (fun _ => none) key).getD dflt) ∧
        (∀ key val, (key, val) ∈ d.entries ↔
          ops.foldl DictionaryOp.apply (fun _ => none) key = some val) ∧
        (d.entries.map Prod.fst).Nodup ∧ (d.entries.length : ℤ) ≤ d.n ∧ d.n ≤ d.size ∧
        d.size ≤ max (max size dictMinSz) (2 * (ops.map DictionaryOp.sets).sum) := by
  have hnew : (dictionaryNew size).Bounded size 0 := by
    refine ⟨le_refl 0, ?_⟩
    simp only [dictionaryNew]
    split <;> omega
  obtain ⟨hnone, hsome⟩ := run_ops (wellFormed_new size) hnew ops
  refine ⟨hnone, ?_⟩
  intro d hd
  obtain ⟨hwf, hcontents, hb⟩ := hsome d hd
  rw [contents_new] at hcontents
  refine ⟨?_, ?_, nodup_entries hwf, ?_, hwf.n_le, ?_⟩
  · intro key dflt
    rw [get_eq, hcontents]
  · intro key val
    rw [mem_entries hwf, hcontents]
  · exact (length_entries d).symm ▸ hwf.used_le
  · simpa only [Nat.zero_add] using hb.size_le

end Run

end LeapFpgaCtrl

end LeapPlatforms
