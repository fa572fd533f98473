import Mathlib.Algebra.Order.Ring.Nat
import Mathlib.Data.List.TakeDrop
import Mathlib.Tactic.Common

/-!
# A stream that is shared out

The items of a stream belong to owners, to each a number of items in a row. The stream with the
owners written to its items has for each owner exactly its share.

## Main definitions

* `owners` — the owners of the places of a stream
* `tagged` — a stream with its owners
* `share` — what belongs to an owner
* `ofTag` — the items with a tag

## Main results

* `getElem?_owners`, `take_succ_tagged` — the next item
* `take_tagged_append_sizes`, `take_tagged_append_items`
* `ofTag_tagged`, `length_share`
-/

namespace LeapPlatforms

namespace Sharing

variable {α : Type*}

/-- The owners of the places, counted from `j`. -/
def ownersFrom (j : ℕ) : List ℕ → List ℕ
  | [] => []
  | n :: sizes => List.replicate n j ++ ownersFrom (j + 1) sizes

/-- The owners of the places, where the `i`-th has `sizes[i]` of them. -/
def owners (sizes : List ℕ) : List ℕ := ownersFrom 0 sizes

/-- The items with their owners, as far as there are owners. -/
def tagged (sizes : List ℕ) (items : List α) : List (ℕ × α) := (owners sizes).zip items

/-- What belongs to the `i`-th. -/
def share (sizes : List ℕ) (items : List α) (i : ℕ) : List α :=
  (items.drop (sizes.take i).sum).take (sizes.getD i 0)

/-- The items with the tag `i`. -/
def ofTag (l : List (ℕ × α)) (i : ℕ) : List α := (l.filter fun x => x.1 = i).map Prod.snd

@[simp] theorem ofTag_nil (i : ℕ) : ofTag ([] : List (ℕ × α)) i = [] := rfl

@[simp] theorem ofTag_append (l l' : List (ℕ × α)) (i : ℕ) :
    ofTag (l ++ l') i = ofTag l i ++ ofTag l' i := by
  simp [ofTag]

theorem ofTag_isPrefix {l l' : List (ℕ × α)} (h : l <+: l') (i : ℕ) :
    ofTag l i <+: ofTag l' i := by
  obtain ⟨r, rfl⟩ := h
  exact ⟨ofTag r i, (ofTag_append l r i).symm⟩

theorem ownersFrom_append (j : ℕ) (l l' : List ℕ) :
    ownersFrom j (l ++ l') = ownersFrom j l ++ ownersFrom (j + l.length) l' := by
  induction l generalizing j with
  | nil => simp [ownersFrom]
  | cons n l ih =>
    rw [List.cons_append, ownersFrom, ownersFrom, ih, List.append_assoc, List.length_cons]
    simp only [Nat.add_assoc, Nat.add_comm 1]

theorem length_ownersFrom (j : ℕ) (l : List ℕ) : (ownersFrom j l).length = l.sum := by
  induction l generalizing j with
  | nil => rfl
  | cons n l ih => simp [ownersFrom, ih]

theorem length_owners (l : List ℕ) : (owners l).length = l.sum := length_ownersFrom 0 l

/-- The place `k` of the `i`-th. -/
theorem getElem?_ownersFrom {sizes : List ℕ} {i n k : ℕ} (j : ℕ) (hi : sizes[i]? = some n)
    (hk : k < n) : (ownersFrom j sizes)[(sizes.take i).sum + k]? = some (j + i) := by
  induction sizes generalizing j i with
  | nil => simp at hi
  | cons m sizes ih =>
    rw [ownersFrom]
    cases i with
    | zero =>
      obtain rfl : m = n := by simpa using hi
      simp [List.getElem?_append_left, hk]
    | succ i =>
      have hrest := ih (j + 1) (by simpa using hi)
      rw [List.getElem?_append_right (by simp; omega), List.length_replicate, List.take_succ_cons,
        List.sum_cons, Nat.add_assoc, Nat.add_sub_cancel_left, hrest, Nat.add_assoc, Nat.add_comm 1]

theorem getElem?_owners {sizes : List ℕ} {i n k : ℕ} (hi : sizes[i]? = some n) (hk : k < n) :
    (owners sizes)[(sizes.take i).sum + k]? = some i := by
  have h := getElem?_ownersFrom 0 hi hk
  rwa [Nat.zero_add] at h

theorem take_tagged (sizes : List ℕ) (items : List α) (k : ℕ) :
    (tagged sizes items).take k = ((owners sizes).take k).zip (items.take k) := by
  rw [tagged, List.zip_eq_zipWith, List.zip_eq_zipWith, List.take_zipWith]

/-- Further owners change nothing before. -/
theorem take_tagged_append_sizes {sizes : List ℕ} {k : ℕ} (hk : k ≤ sizes.sum)
    (sizes' : List ℕ) (items : List α) :
    (tagged (sizes ++ sizes') items).take k = (tagged sizes items).take k := by
  rw [take_tagged, take_tagged, owners, ownersFrom_append,
    List.take_append_of_le_length (by rwa [length_ownersFrom]), owners]

/-- Nor do further items. -/
theorem take_tagged_append_items {items : List α} {k : ℕ} (hk : k ≤ items.length)
    (sizes : List ℕ) (items' : List α) :
    (tagged sizes (items ++ items')).take k = (tagged sizes items).take k := by
  rw [take_tagged, take_tagged, List.take_append_of_le_length hk]

/-- The next item. -/
theorem take_succ_tagged {sizes : List ℕ} {items : List α} {i k : ℕ} {x : α}
    (hi : (owners sizes)[k]? = some i) (hx : items[k]? = some x) :
    (tagged sizes items).take (k + 1) = (tagged sizes items).take k ++ [(i, x)] := by
  have hk : (tagged sizes items)[k]? = some (i, x) := by
    simp [tagged, List.getElem?_zip_eq_some, hi, hx]
  rw [List.take_add_one, hk, Option.toList_some]

theorem zip_append_left (l l' : List ℕ) (items : List α) :
    (l ++ l').zip items = l.zip items ++ l'.zip (items.drop l.length) := by
  induction l generalizing items with
  | nil => simp
  | cons x l ih =>
    cases items with
    | nil => simp
    | cons y items => simp [ih]

theorem le_of_mem_ownersFrom {j x : ℕ} {sizes : List ℕ} (h : x ∈ ownersFrom j sizes) :
    j ≤ x := by
  induction sizes generalizing j with
  | nil => cases h
  | cons n sizes ih =>
    rcases List.mem_append.mp h with h | h
    · exact Nat.le_of_eq (List.eq_of_mem_replicate h).symm
    · exact Nat.le_trans (Nat.le_succ j) (ih h)

/-- Those from `j` on own nothing of an earlier one. -/
theorem ofTag_ownersFrom_of_lt {j i : ℕ} (h : i < j) (sizes : List ℕ) (items : List α) :
    ofTag ((ownersFrom j sizes).zip items) i = [] := by
  rw [ofTag, List.map_eq_nil_iff, List.filter_eq_nil_iff]
  intro x hx
  have hle := le_of_mem_ownersFrom (List.of_mem_zip hx).1
  simp only [decide_eq_true_eq]
  omega

theorem ofTag_replicate (n j i : ℕ) (items : List α) :
    ofTag ((List.replicate n j).zip items) i = if j = i then items.take n else [] := by
  induction n generalizing items with
  | zero => simp
  | succ n ih =>
    cases items with
    | nil => simp
    | cons x items =>
      rw [List.replicate_succ, List.zip_cons_cons, ← List.singleton_append, ofTag_append, ih]
      by_cases hji : j = i
      · simp [ofTag, hji]
      · simp [ofTag, hji]

theorem ofTag_ownersFrom (j i : ℕ) (sizes : List ℕ) (items : List α) :
    ofTag ((ownersFrom j sizes).zip items) (j + i) = share sizes items i := by
  induction sizes generalizing j i items with
  | nil => simp [ownersFrom, share]
  | cons n sizes ih =>
    rw [ownersFrom, zip_append_left, ofTag_append, ofTag_replicate, List.length_replicate]
    cases i with
    | zero =>
      rw [if_pos (Nat.add_zero j).symm, ofTag_ownersFrom_of_lt (by omega)]
      simp [share]
    | succ i =>
      have hrest := ih (j + 1) i (items.drop n)
      rw [Nat.add_assoc, Nat.add_comm 1] at hrest
      rw [if_neg (by omega), List.nil_append, hrest]
      simp [share]

/-- **Each owner has its share.** -/
theorem ofTag_tagged (sizes : List ℕ) (items : List α) (i : ℕ) :
    ofTag (tagged sizes items) i = share sizes items i := by
  have h := ofTag_ownersFrom 0 i sizes items
  rwa [Nat.zero_add] at h

/-- The items of a tagged stream are those of the stream. -/
theorem map_snd_tagged_isPrefix (sizes : List ℕ) (items : List α) :
    (tagged sizes items).map Prod.snd <+: items := by
  rw [tagged]
  generalize owners sizes = l
  induction l generalizing items with
  | nil => simp
  | cons i l ih =>
    cases items with
    | nil => simp
    | cons x items => simpa using ih items

theorem sum_take_succ {sizes : List ℕ} {i n : ℕ} (h : sizes[i]? = some n) :
    (sizes.take (i + 1)).sum = (sizes.take i).sum + n := by
  rw [List.take_add_one, h, List.sum_append, Option.toList_some, List.sum_singleton]

theorem sum_take_le (sizes : List ℕ) (i : ℕ) : (sizes.take i).sum ≤ sizes.sum := by
  conv_rhs => rw [← List.take_append_drop i sizes, List.sum_append]
  exact Nat.le_add_right ..

/-- A share is complete when there are items for all. -/
theorem length_share {sizes : List ℕ} {items : List α} (h : sizes.sum ≤ items.length) (i : ℕ) :
    (share sizes items i).length = sizes.getD i 0 := by
  have hle : (sizes.take i).sum + sizes.getD i 0 ≤ sizes.sum := by
    cases hi : sizes[i]? with
    | none => simpa [List.getD, hi] using sum_take_le sizes i
    | some n =>
      have hsum := sum_take_succ hi
      have hnext := sum_take_le sizes (i + 1)
      simp only [List.getD, hi, Option.getD_some]
      omega
  rw [share, List.length_take, List.length_drop]
  omega

end Sharing

end LeapPlatforms
