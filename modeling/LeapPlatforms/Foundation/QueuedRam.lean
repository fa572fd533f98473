import Mathlib.Logic.Function.Basic
import Mathlib.Tactic.Common

/-!
# A memory that answers reads in order

A read samples the memory when it is asked for; the answer waits in a queue.

## Main definitions

* `QueuedRam`, `QueuedRam.readReq`, `QueuedRam.write`
-/

namespace LeapPlatforms

/-- A memory, and the answers that wait. -/
structure QueuedRam (ι α : Type*) where
  /-- The memory. -/
  contents : ι → α
  /-- The answers. -/
  pending : List α

namespace QueuedRam

variable {ι α : Type*}

/-- A read is asked for. -/
def readReq (r : QueuedRam ι α) (a : ι) : QueuedRam ι α :=
  { r with pending := r.pending ++ [r.contents a] }

/-- A write. -/
def write [DecidableEq ι] (r : QueuedRam ι α) (a : ι) (x : α) : QueuedRam ι α :=
  { r with contents := Function.update r.contents a x }

@[simp] theorem contents_readReq (r : QueuedRam ι α) (a : ι) :
    (r.readReq a).contents = r.contents := rfl

@[simp] theorem pending_readReq (r : QueuedRam ι α) (a : ι) :
    (r.readReq a).pending = r.pending ++ [r.contents a] := rfl

@[simp] theorem pending_write [DecidableEq ι] (r : QueuedRam ι α) (a : ι) (x : α) :
    (r.write a x).pending = r.pending := rfl

@[simp] theorem contents_write [DecidableEq ι] (r : QueuedRam ι α) (a : ι) (x : α) :
    (r.write a x).contents = Function.update r.contents a x := rfl

end QueuedRam

end LeapPlatforms
