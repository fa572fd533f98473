import Mathlib.Data.List.Basic

/-!
# A FIFO that can be rewound

A queue for senders that may have to send again. Dequeued entries are kept until they are
committed; `rewind` makes every dequeued but uncommitted entry available again, and `commit n`
gives up the `n` oldest dequeued entries for good.

The committed entries are kept too, as a history: no operation reads them, but with them the
queue is one list cut in three places,

```
stream = committed ++ taken ++ pending
```

and every operation but `enq` only moves the cuts.

## Main definitions

* `RewindFifo`, with `enq`, `first`, `deq`, `rewind`, `commit`
* `RewindFifo.stream`, `RewindFifo.level`

## Main results

* `stream_enq`, `stream_deq`, `stream_rewind`, `stream_commit`
* `committed_isPrefix`
-/

namespace LeapPlatforms

/-- A FIFO with rewind, as the list of its entries cut into three parts. -/
structure RewindFifo (α : Type*) where
  /-- History: the entries given up by `commit`, oldest first. -/
  committed : List α
  /-- Entries dequeued since, still held because a rewind may ask for them. -/
  taken : List α
  /-- Entries not dequeued. -/
  pending : List α
  deriving DecidableEq, Repr

namespace RewindFifo

variable {α : Type*}

/-- The FIFO after reset. -/
def empty : RewindFifo α := ⟨[], [], []⟩

/-- The number of entries the FIFO stores: what is committed takes no room. -/
def level (q : RewindFifo α) : ℕ := q.taken.length + q.pending.length

/-- Everything ever enqueued, oldest first. -/
def stream (q : RewindFifo α) : List α := q.committed ++ q.taken ++ q.pending

/-- Enqueue at the tail. -/
def enq (q : RewindFifo α) (x : α) : RewindFifo α := { q with pending := q.pending ++ [x] }

/-- The entry that `deq` removes. -/
def first (q : RewindFifo α) : Option α := q.pending.head?

/-- Dequeue, keeping the entry for a rewind. -/
def deq (q : RewindFifo α) : RewindFifo α :=
  { q with taken := q.taken ++ q.pending.head?.toList, pending := q.pending.tail }

/-- Make every dequeued entry available again. -/
def rewind (q : RewindFifo α) : RewindFifo α :=
  { q with taken := [], pending := q.taken ++ q.pending }

/-- Give up the `n` oldest dequeued entries. -/
def commit (n : ℕ) (q : RewindFifo α) : RewindFifo α :=
  { q with committed := q.committed ++ q.taken.take n, taken := q.taken.drop n }

@[simp] theorem stream_empty : (empty : RewindFifo α).stream = [] := rfl

@[simp] theorem stream_enq (q : RewindFifo α) (x : α) : (q.enq x).stream = q.stream ++ [x] := by
  simp [stream, enq]

@[simp] theorem stream_rewind (q : RewindFifo α) : q.rewind.stream = q.stream := by
  simp [stream, rewind]

@[simp] theorem stream_commit (n : ℕ) (q : RewindFifo α) : (q.commit n).stream = q.stream := by
  simp [stream, commit]

@[simp] theorem stream_deq (q : RewindFifo α) : q.deq.stream = q.stream := by
  cases h : q.pending <;> simp [stream, deq, h]

theorem committed_isPrefix (q : RewindFifo α) : q.committed <+: q.stream :=
  ⟨q.taken ++ q.pending, by simp [stream]⟩

theorem first_eq_some {q : RewindFifo α} {x : α} (h : q.first = some x) :
    ∃ rest, q.pending = x :: rest := by
  cases hp : q.pending with
  | nil => simp [first, hp] at h
  | cons y rest =>
    obtain rfl : y = x := by simpa [first, hp] using h
    exact ⟨rest, rfl⟩

/-- The first pending entry, as an entry of the stream. -/
theorem stream_getElem?_of_first {q : RewindFifo α} {x : α} (h : q.first = some x) :
    q.stream[q.committed.length + q.taken.length]? = some x := by
  obtain ⟨rest, hrest⟩ := first_eq_some h
  rw [stream, ← List.length_append, List.getElem?_append_right (Nat.le_refl _), hrest, Nat.sub_self]
  rfl

/-- What a commit gives up is the stream's next stretch after what is already committed. -/
theorem commit_isPrefix (n : ℕ) (q : RewindFifo α) :
    q.committed ++ q.taken.take n <+: q.stream := by
  have := (q.commit n).committed_isPrefix
  rwa [stream_commit] at this

@[simp] theorem taken_deq_length {q : RewindFifo α} {x : α} (h : q.first = some x) :
    q.deq.taken.length = q.taken.length + 1 := by
  obtain ⟨rest, hrest⟩ := first_eq_some h
  simp [deq, hrest]

@[simp] theorem taken_commit_length (n : ℕ) (q : RewindFifo α) :
    (q.commit n).taken.length = q.taken.length - n := by
  simp [commit]

@[simp] theorem committed_commit_length (n : ℕ) (q : RewindFifo α) :
    (q.commit n).committed.length = q.committed.length + min n q.taken.length := by
  simp [commit]

end RewindFifo

end LeapPlatforms
