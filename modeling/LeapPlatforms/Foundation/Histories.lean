import Mathlib.Data.List.Basic

/-!
# Histories of an object

An object that several parties use is right when what happened to it can be put in one order in
which everything happens at once. An event carries what it returned; a history is legal when each
event returned what it should where it stands.

## Main definitions

* `Sequential`, `Sequential.after`
* `Sequential.LegalFrom`, `Sequential.Legal`

## Main results

* `Sequential.Legal.append`
-/

namespace LeapPlatforms

/-- An object whose events happen at once. -/
structure Sequential (σ ε : Type*) where
  start : σ
  apply : σ → ε → σ
  /-- The event returned what it should. -/
  Right : σ → ε → Prop

namespace Sequential

variable {σ ε : Type*} (O : Sequential σ ε)

/-- The state after a history. -/
def after (h : List ε) : σ := h.foldl O.apply O.start

/-- Each event is right where it stands. -/
def LegalFrom : σ → List ε → Prop
  | _, [] => True
  | s, e :: l => O.Right s e ∧ LegalFrom (O.apply s e) l

def Legal (h : List ε) : Prop := O.LegalFrom O.start h

variable {O}

theorem after_append (h l : List ε) : O.after (h ++ l) = l.foldl O.apply (O.after h) :=
  List.foldl_append

theorem LegalFrom.append {s : σ} {h l : List ε} (hh : O.LegalFrom s h)
    (hl : O.LegalFrom (h.foldl O.apply s) l) : O.LegalFrom s (h ++ l) := by
  induction h generalizing s with
  | nil => exact hl
  | cons e h ih => exact ⟨hh.1, ih hh.2 hl⟩

/-- A legal history goes on with what is legal behind it. -/
theorem Legal.append {h l : List ε} (hh : O.Legal h) (hl : O.LegalFrom (O.after h) l) :
    O.Legal (h ++ l) :=
  LegalFrom.append hh hl

end Sequential

end LeapPlatforms
