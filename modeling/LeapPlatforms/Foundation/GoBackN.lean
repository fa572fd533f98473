import LeapPlatforms.Foundation.TransitionSystem
import Mathlib.Data.List.Basic
import Mathlib.Tactic.Ring

/-!
# Go-back-N with a partial resume point

One direction of a sliding-window protocol over a lossy FIFO link, with unbounded frame numbers.
The sender cuts an unbounded source into frames of `F` items, sends each as a header and `F`
items, and may have `W` frames outstanding; at any moment it may go back to its oldest
unacknowledged frame. The receiver remembers not only how many frames are complete but also how
far it got in the one that is not, and resumes there when the frame is sent again.

Everything that was ever put on the link is in `log`; the link and the receiver refer to its
entries by number. The link may lose anything, in either direction.

The numbers here are true frame numbers. An implementation sends them modulo something, and what
it needs to know for that are the window bounds of `Inv`: a frame on the link lies between
`done - W` and `base + W`, an acknowledgement in flight between `base - W` and `done`.

## Main definitions

* `Token`, `State`, `Step`, `system`
* `pipeline` — the frame numbers between receiver and sender, oldest knowledge first
* `Inv`

## Main results

* `Inv.step`, `inv_of_reachable`
* `delivered_isPrefix` — what was delivered is a prefix of the source
* `Inv.header_window`, `Inv.ack_window` — the bounds for numbers modulo something
* `Inv.ack_done` — an acknowledgement in flight is for a frame that is complete
-/

namespace LeapPlatforms

namespace GoBackN

variable {α : Type*}

/-- What the sender puts on the link. -/
inductive Token (α : Type*)
  /-- The start of a frame. -/
  | header (frame : ℕ)
  /-- The item at a position of a frame. -/
  | item (frame pos : ℕ) (val : α)
  deriving DecidableEq, Repr

/-- The frame a token belongs to. -/
def Token.frame : Token α → ℕ
  | .header f => f
  | .item f _ _ => f

/-- The frame and the position of the item that follows a token in the same frame. -/
def Token.next : Token α → ℕ × ℕ
  | .header f => (f, 0)
  | .item f j _ => (f, j + 1)

@[simp] theorem Token.next_fst (t : Token α) : t.next.1 = t.frame := by cases t <;> rfl

/-- One direction of the protocol: the sender, the link, the receiver and the way back. -/
structure State (α : Type*) where
  /-- Everything the sender was given so far. -/
  source : List α
  /-- Frames committed by the sender: acknowledged, and given up for good. -/
  base : ℕ
  /-- Whole frames sent since `base` that are not acknowledged. -/
  outstanding : ℕ
  /-- The number of items already sent of the frame being sent, if one is. -/
  sending : Option ℕ
  /-- Every token ever sent, in order. -/
  log : List (Token α)
  /-- The numbers (in `log`) of the tokens on the link, oldest first. -/
  wire : List ℕ
  /-- The frame the receiver is following without error, and the position it expects next. -/
  current : Option (ℕ × ℕ)
  /-- Frames the receiver has completed. -/
  done : ℕ
  /-- Items of the next frame the receiver has delivered. -/
  pos : ℕ
  /-- Everything delivered. -/
  delivered : List α
  /-- Acknowledgements on their way to the sender, oldest first. -/
  acks : List ℕ

/-- Before anything happened. -/
def State.start : State α :=
  { source := [], base := 0, outstanding := 0, sending := none, log := [], wire := [],
    current := none, done := 0, pos := 0, delivered := [], acks := [] }

/-- The frame the sender sends next, or is sending. -/
def State.frame (g : State α) : ℕ := g.base + g.outstanding

/-- Put a token on the link. -/
def State.emit (g : State α) (t : Token α) : State α :=
  { g with log := g.log ++ [t], wire := g.wire ++ [g.log.length] }

@[simp] theorem State.emit_base (g : State α) (t : Token α) : (g.emit t).base = g.base := rfl

@[simp] theorem State.emit_outstanding (g : State α) (t : Token α) :
    (g.emit t).outstanding = g.outstanding := rfl

variable (F W : ℕ)

/-- The steps of the protocol, for frames of `F` items and a window of `W` frames. -/
inductive Step : State α → State α → Prop
  /-- The sender is given more to send. -/
  | give (g : State α) (xs : List α) : Step g { g with source := g.source ++ xs }
  /-- A frame is started. -/
  | header (g : State α) : g.sending = none → g.outstanding < W →
      Step g { g.emit (.header g.frame) with sending := some 0 }
  /-- An item other than the last of its frame is sent. -/
  | item (g : State α) (j : ℕ) (d : α) : g.sending = some j → j + 1 < F →
      g.source[F * g.frame + j]? = some d →
      Step g { g.emit (.item g.frame j d) with sending := some (j + 1) }
  /-- The last item of a frame is sent, and the frame waits for its acknowledgement. -/
  | lastItem (g : State α) (j : ℕ) (d : α) : g.sending = some j → j + 1 = F →
      g.source[F * g.frame + j]? = some d →
      Step g { g.emit (.item g.frame j d) with
        sending := none, outstanding := g.outstanding + 1 }
  /-- The sender goes back to its oldest unacknowledged frame. -/
  | goBack (g : State α) : Step g { g with sending := none, outstanding := 0 }
  /-- The link, or a receiver in error, loses tokens. -/
  | lose (g : State α) (w : List ℕ) : w.Sublist g.wire → Step g { g with wire := w }
  /-- The receiver accepts the header of a frame that is not beyond the one it waits for. -/
  | recvHeader (g : State α) (i f : ℕ) (w : List ℕ) : g.wire = i :: w →
      g.log[i]? = some (.header f) → f ≤ g.done →
      Step g { g with wire := w, current := some (f, 0) }
  /-- The receiver delivers the item it waits for, not the last of its frame. -/
  | recvNew (g : State α) (i : ℕ) (d : α) (w : List ℕ) : g.wire = i :: w →
      g.log[i]? = some (.item g.done g.pos d) → g.current = some (g.done, g.pos) →
      g.pos + 1 < F →
      Step g { g with
        wire := w, current := some (g.done, g.pos + 1), pos := g.pos + 1,
        delivered := g.delivered ++ [d] }
  /-- The receiver delivers the last item of a frame and acknowledges the frame. -/
  | recvLast (g : State α) (i : ℕ) (d : α) (w : List ℕ) : g.wire = i :: w →
      g.log[i]? = some (.item g.done g.pos d) → g.current = some (g.done, g.pos) →
      g.pos + 1 = F →
      Step g { g with
        wire := w, current := some (g.done, g.pos + 1), pos := 0, done := g.done + 1,
        delivered := g.delivered ++ [d], acks := g.acks ++ [g.done] }
  /-- The receiver skips an item it has delivered before, not the last of its frame. -/
  | recvOld (g : State α) (i f j : ℕ) (d : α) (w : List ℕ) : g.wire = i :: w →
      g.log[i]? = some (.item f j d) → g.current = some (f, j) →
      (f, j) ≠ (g.done, g.pos) → j + 1 < F →
      Step g { g with wire := w, current := some (f, j + 1) }
  /-- The receiver skips the last item of a frame it completed before, and acknowledges the
  frame again. -/
  | recvOldLast (g : State α) (i f j : ℕ) (d : α) (w : List ℕ) : g.wire = i :: w →
      g.log[i]? = some (.item f j d) → g.current = some (f, j) →
      (f, j) ≠ (g.done, g.pos) → j + 1 = F →
      Step g { g with wire := w, current := some (f, j + 1), acks := g.acks ++ [f] }
  /-- The way back loses acknowledgements, or the sender drops one it does not expect. -/
  | loseAck (g : State α) (a : List ℕ) : a.Sublist g.acks → Step g { g with acks := a }
  /-- The sender commits its oldest frame. -/
  | commit (g : State α) (a : List ℕ) : g.acks = g.base :: a → 0 < g.outstanding →
      Step g { g with acks := a, base := g.base + 1, outstanding := g.outstanding - 1 }

/-- The protocol as a transition system. -/
def system (α : Type*) (F W : ℕ) : TransitionSystem (State α) where
  init g := g = State.start
  step := Step F W

/-! ### The pipeline

Frame numbers travel from the link through the receiver into the acknowledgements. Read from the
sender's end, they are in the order in which the sender sent them, and that is the order in which
they can tell the sender something. -/

/-- The frame numbers of the tokens on the link. -/
def State.wireFrames (g : State α) : List ℕ :=
  g.wire.filterMap fun i => g.log[i]?.map Token.frame

/-- The frame numbers between the sender's input and its output, oldest first. -/
def State.pipeline (g : State α) : List ℕ :=
  g.acks ++ ((g.current.map Prod.fst).toList ++ g.wireFrames)

/-- The invariant of the protocol. -/
structure Inv (g : State α) : Prop where
  /-- The window is respected. -/
  window : g.outstanding + g.sending.toList.length ≤ W
  /-- What was committed is complete. -/
  base_le : g.base ≤ g.done
  /-- The receiver is at most a window ahead. -/
  done_le_base : g.done ≤ g.base + W
  /-- The resume point lies inside a frame. -/
  pos_lt : g.pos < F
  /-- The position of the sender lies inside a frame. -/
  sending_lt : ∀ j, g.sending = some j → j < F
  /-- What counts as sent was in the source. -/
  sent_le : F * g.frame + g.sending.getD 0 ≤ g.source.length
  /-- What was delivered is the beginning of the source, up to the resume point. -/
  delivered_eq : g.delivered = g.source.take (F * g.done + g.pos)
  /-- The resume point lies inside the source. -/
  delivered_le : F * g.done + g.pos ≤ g.source.length
  /-- Every item ever sent is the source's item at its place. -/
  log_item : ∀ (i f j : ℕ) (d : α),
    g.log[i]? = some (.item f j d) → j < F ∧ g.source[F * f + j]? = some d
  /-- After a token comes the next item of its frame, or a header. -/
  log_next : ∀ (i : ℕ) (t u : Token α), g.log[i]? = some t → g.log[i + 1]? = some u →
    (∃ f, u = Token.header f) ∨ ∃ d, u = Token.item t.next.1 t.next.2 d
  /-- The last token sent precedes the item that the sender sends next. -/
  log_last : ∀ j, g.sending = some j → ∃ t, g.log.getLast? = some t ∧ t.next = (g.frame, j)
  /-- The link refers to tokens that were sent. -/
  wire_lt : ∀ i ∈ g.wire, i < g.log.length
  /-- What the receiver follows without error it has not passed. -/
  current_le : ∀ f j, g.current = some (f, j) → f < g.done ∨ f = g.done ∧ j ≤ g.pos
  /-- Only complete frames are acknowledged. -/
  ack_done : ∀ a ∈ g.acks, a < g.done
  /-- A frame not yet acknowledged is less than a window behind the receiver. -/
  done_le : ∀ x ∈ (g.current.map Prod.fst).toList ++ g.wireFrames, g.done ≤ x + W
  /-- No frame number in the pipeline is beyond the window. -/
  pipe_lt : ∀ x ∈ g.pipeline, x < g.base + W
  /-- No frame number in the pipeline is a window behind the sender. -/
  pipe_ge : ∀ x ∈ g.pipeline, g.base ≤ x + W
  /-- Later frame numbers are less than a window behind earlier ones. -/
  pipe_pairwise : g.pipeline.Pairwise fun x y => x < y + W

variable {F W} {g g' : State α}

/-! ### Sending -/

/-- A token may follow a log if it is a header, or the next item after the log's last token. -/
def Follows (l : List (Token α)) (t : Token α) : Prop :=
  (∃ f, t = .header f) ∨ ∃ u d, l.getLast? = some u ∧ t = .item u.next.1 u.next.2 d

theorem log_next_append {l : List (Token α)} {t : Token α} (ht : Follows l t)
    (h : ∀ (i : ℕ) (u v : Token α), l[i]? = some u → l[i + 1]? = some v →
      (∃ f, v = Token.header f) ∨ ∃ d, v = Token.item u.next.1 u.next.2 d) :
    ∀ (i : ℕ) (u v : Token α), (l ++ [t])[i]? = some u → (l ++ [t])[i + 1]? = some v →
      (∃ f, v = Token.header f) ∨ ∃ d, v = Token.item u.next.1 u.next.2 d := by
  intro i u v hu hv
  rcases Nat.lt_trichotomy (i + 1) l.length with hlt | heq | hgt
  · rw [List.getElem?_append_left (by omega)] at hu
    rw [List.getElem?_append_left hlt] at hv
    exact h i u v hu hv
  · rw [List.getElem?_append_left (by omega)] at hu
    rw [heq, List.getElem?_append_right (Nat.le_refl _), Nat.sub_self] at hv
    obtain rfl : t = v := by simpa using hv
    have hlast : l.getLast? = some u := by
      rw [List.getLast?_eq_getElem?, ← heq, Nat.add_sub_cancel]
      exact hu
    rcases ht with hhead | ⟨w, d, hw, hitem⟩
    · exact Or.inl hhead
    · obtain rfl : w = u := Option.some.inj (hw.symm.trans hlast)
      exact Or.inr ⟨d, hitem⟩
  · have : l.length + 1 ≤ i + 1 := hgt
    rw [List.getElem?_eq_none (by simp; omega)] at hv
    cases hv

theorem wireFrames_emit (h : ∀ i ∈ g.wire, i < g.log.length) (t : Token α) :
    (g.emit t).wireFrames = g.wireFrames ++ [t.frame] := by
  have hold : ∀ i ∈ g.wire, (g.log ++ [t])[i]?.map Token.frame = g.log[i]?.map Token.frame := by
    intro i hi
    rw [List.getElem?_append_left (h i hi)]
  simp only [State.wireFrames, State.emit, List.filterMap_append, List.filterMap_cons,
    List.filterMap_nil, List.getElem?_concat_length, Option.map_some]
  rw [List.filterMap_congr hold]

theorem pipeline_emit (h : ∀ i ∈ g.wire, i < g.log.length) (t : Token α) :
    (g.emit t).pipeline = g.pipeline ++ [t.frame] := by
  rw [State.pipeline, State.pipeline, wireFrames_emit h]
  simp [State.emit]

/-- What a state must satisfy to send a token of the frame being sent. -/
theorem Inv.emit (h : Inv F W g) {t : Token α} (hframe : t.frame = g.frame)
    (hfollows : Follows g.log t) (hout : g.outstanding < W)
    (hitem : ∀ f j d, t = .item f j d → j < F ∧ g.source[F * f + j]? = some d) {n : Option ℕ} {k : ℕ}
    (hwindow : k + n.toList.length ≤ W) (hn : ∀ j, n = some j → j < F)
    (hsent : F * (g.base + k) + n.getD 0 ≤ g.source.length)
    (hlast : ∀ j, n = some j → t.next = (g.base + k, j)) :
    Inv F W { g.emit t with sending := n, outstanding := k } where
  window := hwindow
  base_le := h.base_le
  done_le_base := h.done_le_base
  pos_lt := h.pos_lt
  sending_lt := hn
  sent_le := hsent
  delivered_eq := h.delivered_eq
  delivered_le := h.delivered_le
  log_item := by
    intro i f j d hi
    rcases Nat.lt_trichotomy i g.log.length with hlt | rfl | hgt
    · exact h.log_item i f j d (by rwa [State.emit, List.getElem?_append_left hlt] at hi)
    · exact hitem f j d (by simpa [State.emit] using hi)
    · rw [State.emit, List.getElem?_eq_none (by simp; omega)] at hi
      cases hi
  log_next := log_next_append hfollows h.log_next
  log_last := fun j hj => ⟨t, by simp [State.emit], hlast j hj⟩
  wire_lt := by
    intro i hi
    rcases List.mem_append.mp hi with hi | hi
    · have := h.wire_lt i hi
      simp only [State.emit, List.length_append, List.length_singleton]
      omega
    · obtain rfl : i = g.log.length := by simpa using hi
      simp [State.emit]
  current_le := h.current_le
  ack_done := h.ack_done
  done_le := by
    intro x hx
    have hx : x ∈ (g.current.map Prod.fst).toList ++ (g.wireFrames ++ [t.frame]) := by
      rw [← wireFrames_emit h.wire_lt t]; exact hx
    rcases List.mem_append.mp hx with hx | hx
    · exact h.done_le x (List.mem_append_left _ hx)
    · rcases List.mem_append.mp hx with hx | hx
      · exact h.done_le x (List.mem_append_right _ hx)
      · obtain rfl : x = t.frame := by simpa using hx
        have := h.done_le_base
        rw [hframe, State.frame]
        show g.done ≤ g.base + g.outstanding + W
        omega
  pipe_lt := by
    intro x hx
    have hx : x ∈ g.pipeline ++ [t.frame] := by rw [← pipeline_emit h.wire_lt t]; exact hx
    rcases List.mem_append.mp hx with hx | hx
    · exact h.pipe_lt x hx
    · obtain rfl : x = t.frame := by simpa using hx
      rw [hframe, State.frame]
      show g.base + g.outstanding < g.base + W
      omega
  pipe_ge := by
    intro x hx
    have hx : x ∈ g.pipeline ++ [t.frame] := by rw [← pipeline_emit h.wire_lt t]; exact hx
    rcases List.mem_append.mp hx with hx | hx
    · exact h.pipe_ge x hx
    · obtain rfl : x = t.frame := by simpa using hx
      rw [hframe, State.frame]
      show g.base ≤ g.base + g.outstanding + W
      omega
  pipe_pairwise := by
    show List.Pairwise _ (g.emit t).pipeline
    rw [pipeline_emit h.wire_lt t, List.pairwise_append]
    refine ⟨h.pipe_pairwise, List.pairwise_singleton _ _, ?_⟩
    intro x hx y hy
    obtain rfl : y = t.frame := by simpa using hy
    have := h.pipe_lt x hx
    rw [hframe, State.frame]
    omega

theorem Inv.header (h : Inv F W g) (hnone : g.sending = none) (hout : g.outstanding < W)
    (hF : 0 < F) : Inv F W { g.emit (.header g.frame) with sending := some 0 } := by
  refine h.emit rfl (Or.inl ⟨_, rfl⟩) hout (by simp) (by simp; omega) (by simpa using hF) ?_ ?_
  · simpa [hnone, State.frame] using h.sent_le
  · simp [Token.next, State.frame]

/-- The token for the next item follows the log. -/
theorem Inv.follows_item (h : Inv F W g) {j : ℕ} (hj : g.sending = some j) (d : α) :
    Follows g.log (.item g.frame j d) := by
  obtain ⟨t, ht, hnext⟩ := h.log_last j hj
  exact Or.inr ⟨t, d, ht, by rw [hnext]⟩

theorem Inv.outstanding_lt (h : Inv F W g) {j : ℕ} (hj : g.sending = some j) :
    g.outstanding < W := by
  have := h.window
  simp only [hj, Option.toList_some, List.length_singleton] at this
  omega

theorem Inv.item (h : Inv F W g) {j : ℕ} {d : α} (hj : g.sending = some j) (hlt : j + 1 < F)
    (hd : g.source[F * g.frame + j]? = some d) :
    Inv F W { g.emit (.item g.frame j d) with sending := some (j + 1) } := by
  have hidx : F * g.frame + j < g.source.length := (List.getElem?_eq_some_iff.mp hd).1
  refine h.emit rfl (h.follows_item hj d) (h.outstanding_lt hj) ?_ ?_ (by simpa using hlt) ?_ ?_
  · rintro f i e he
    obtain ⟨rfl, rfl, rfl⟩ := Token.item.inj he
    exact ⟨by omega, hd⟩
  · simpa using Nat.succ_le_of_lt (h.outstanding_lt hj)
  · simp only [Option.getD_some, State.frame, State.emit_outstanding] at hidx ⊢
    omega
  · simp [Token.next, State.frame]

theorem Inv.lastItem (h : Inv F W g) {j : ℕ} {d : α} (hj : g.sending = some j) (hF : j + 1 = F)
    (hd : g.source[F * g.frame + j]? = some d) :
    Inv F W { g.emit (.item g.frame j d) with
      sending := none, outstanding := g.outstanding + 1 } := by
  have hidx : F * g.frame + j < g.source.length := (List.getElem?_eq_some_iff.mp hd).1
  refine h.emit rfl (h.follows_item hj d) (h.outstanding_lt hj) ?_ ?_ (by simp) ?_ (by simp)
  · rintro f i e he
    obtain ⟨rfl, rfl, rfl⟩ := Token.item.inj he
    exact ⟨by omega, hd⟩
  · simpa using Nat.succ_le_of_lt (h.outstanding_lt hj)
  · have : F * (g.base + (g.outstanding + 1)) = F * g.frame + F := by
      rw [State.frame]; ring
    simp only [Option.getD_none, this]
    omega

/-! ### Receiving -/

/-- Numbers that leave the pipeline on its way to the sender change nothing about the rest: what
the receiver does keeps the invariant, given what it says about the receiver itself. -/
theorem Inv.receive (h : Inv F W g) {w : List ℕ} {c : Option (ℕ × ℕ)} {p n : ℕ} {del : List α}
    {a : List ℕ} (hw : w.Sublist g.wire)
    (hpipe : List.Sublist { g with wire := w, current := c, acks := a }.pipeline g.pipeline)
    (hn : g.done ≤ n) (hnW : n ≤ g.base + W) (hp : p < F)
    (hdel : del = g.source.take (F * n + p)) (hlen : F * n + p ≤ g.source.length)
    (hc : ∀ f j, c = some (f, j) → f < n ∨ f = n ∧ j ≤ p) (ha : ∀ x ∈ a, x < n)
    (hdone : ∀ x ∈ (c.map Prod.fst).toList ++ { g with wire := w }.wireFrames, n ≤ x + W) :
    Inv F W { g with
      wire := w, current := c, pos := p, done := n, delivered := del, acks := a } where
  window := h.window
  base_le := Nat.le_trans h.base_le hn
  done_le_base := hnW
  pos_lt := hp
  sending_lt := h.sending_lt
  sent_le := h.sent_le
  delivered_eq := hdel
  delivered_le := hlen
  log_item := h.log_item
  log_next := h.log_next
  log_last := h.log_last
  wire_lt := fun i hi => h.wire_lt i (hw.subset hi)
  current_le := hc
  ack_done := ha
  done_le := hdone
  pipe_lt := fun x hx => h.pipe_lt x (hpipe.subset hx)
  pipe_ge := fun x hx => h.pipe_ge x (hpipe.subset hx)
  pipe_pairwise := h.pipe_pairwise.sublist hpipe

theorem wireFrames_sublist {w : List ℕ} (hw : w.Sublist g.wire) :
    List.Sublist { g with wire := w }.wireFrames g.wireFrames :=
  hw.filterMap _

theorem wireFrames_cons {i : ℕ} {w : List ℕ} {t : Token α} (hw : g.wire = i :: w)
    (ht : g.log[i]? = some t) : g.wireFrames = t.frame :: { g with wire := w }.wireFrames := by
  simp [State.wireFrames, hw, ht]

theorem Inv.lose (h : Inv F W g) {w : List ℕ} (hw : w.Sublist g.wire) :
    Inv F W { g with wire := w } := by
  have hsub := wireFrames_sublist hw
  refine h.receive hw ?_ (Nat.le_refl _) h.done_le_base h.pos_lt h.delivered_eq h.delivered_le
    h.current_le h.ack_done ?_
  · exact (List.Sublist.refl _).append ((List.Sublist.refl _).append hsub)
  · exact fun x hx => h.done_le x (((List.Sublist.refl _).append hsub).subset hx)

theorem Inv.loseAck (h : Inv F W g) {a : List ℕ} (ha : a.Sublist g.acks) :
    Inv F W { g with acks := a } :=
  h.receive (List.Sublist.refl _) (ha.append (List.Sublist.refl _)) (Nat.le_refl _)
    h.done_le_base h.pos_lt h.delivered_eq h.delivered_le h.current_le
    (fun x hx => h.ack_done x (ha.subset hx)) h.done_le

theorem Inv.recvHeader (h : Inv F W g) {i f : ℕ} {w : List ℕ} (hw : g.wire = i :: w)
    (ht : g.log[i]? = some (.header f)) (hf : f ≤ g.done) :
    Inv F W { g with wire := w, current := some (f, 0) } := by
  have hcons : g.wireFrames = f :: { g with wire := w }.wireFrames := wireFrames_cons hw ht
  refine h.receive (by rw [hw]; exact List.sublist_cons_self i w) ?_ (Nat.le_refl _)
    h.done_le_base h.pos_lt h.delivered_eq h.delivered_le ?_ h.ack_done ?_
  · refine (List.Sublist.refl _).append ?_
    rw [hcons]
    exact List.sublist_append_right _ _
  · rintro f' j hc
    obtain ⟨rfl, rfl⟩ : f = f' ∧ 0 = j := by simpa using hc
    omega
  · intro x hx
    refine h.done_le x (List.mem_append_right _ ?_)
    rw [hcons]
    exact hx

/-- The pipeline when the receiver takes the item it expects: the link's first number is the
number of the receiver's own frame. -/
theorem pipeline_item {i f j : ℕ} {d : α} {w : List ℕ} (hw : g.wire = i :: w)
    (ht : g.log[i]? = some (.item f j d)) (hc : g.current = some (f, j)) :
    g.pipeline = g.acks ++ ([f] ++ (f :: { g with wire := w }.wireFrames)) := by
  rw [State.pipeline, wireFrames_cons hw ht, hc]
  rfl

/-- Taking an item without an acknowledgement shortens the pipeline. -/
theorem pipeline_item_sublist {i f j k : ℕ} {d : α} {w : List ℕ} (hw : g.wire = i :: w)
    (ht : g.log[i]? = some (.item f j d)) (hc : g.current = some (f, j)) :
    List.Sublist { g with wire := w, current := some (f, k), acks := g.acks }.pipeline
      g.pipeline := by
  rw [pipeline_item hw ht hc]
  exact (List.Sublist.refl _).append (List.sublist_append_right _ _)

/-- Taking an item with an acknowledgement keeps the pipeline: the link's number becomes the
receiver's, and the receiver's the acknowledgement. -/
theorem pipeline_item_ack {i f j k : ℕ} {d : α} {w : List ℕ} (hw : g.wire = i :: w)
    (ht : g.log[i]? = some (.item f j d)) (hc : g.current = some (f, j)) :
    { g with wire := w, current := some (f, k), acks := g.acks ++ [f] }.pipeline = g.pipeline := by
  rw [pipeline_item hw ht hc]
  simp [State.pipeline, State.wireFrames]

/-- After taking an item of frame `f`, whatever held of the frames before it still does. -/
theorem Inv.done_le_item (h : Inv F W g) {i f j : ℕ} {d : α} {w : List ℕ} (hw : g.wire = i :: w)
    (ht : g.log[i]? = some (.item f j d)) (hc : g.current = some (f, j)) {x : ℕ}
    (hx : x ∈ [f] ++ { g with wire := w }.wireFrames) : g.done ≤ x + W := by
  refine h.done_le x ?_
  rw [wireFrames_cons hw ht, hc]
  rcases List.mem_append.mp hx with hx | hx
  · exact List.mem_append_left _ hx
  · exact List.mem_append_right _ (List.mem_cons_of_mem _ hx)

/-- The item that the receiver waits for extends what was delivered. -/
theorem Inv.delivered_append (h : Inv F W g) {i : ℕ} {d : α}
    (ht : g.log[i]? = some (.item g.done g.pos d)) :
    g.delivered ++ [d] = g.source.take (F * g.done + g.pos + 1) ∧
      F * g.done + g.pos + 1 ≤ g.source.length := by
  obtain ⟨_, hd⟩ := h.log_item _ _ _ _ ht
  refine ⟨by rw [List.take_add_one, hd, h.delivered_eq]; rfl, ?_⟩
  exact (List.getElem?_eq_some_iff.mp hd).1

theorem Inv.recvNew (h : Inv F W g) {i : ℕ} {d : α} {w : List ℕ} (hw : g.wire = i :: w)
    (ht : g.log[i]? = some (.item g.done g.pos d)) (hc : g.current = some (g.done, g.pos))
    (hF : g.pos + 1 < F) :
    Inv F W { g with
      wire := w, current := some (g.done, g.pos + 1), pos := g.pos + 1,
      delivered := g.delivered ++ [d] } := by
  obtain ⟨hdel, hlen⟩ := h.delivered_append ht
  refine h.receive (by rw [hw]; exact List.sublist_cons_self i w) (pipeline_item_sublist hw ht hc)
    (Nat.le_refl _) h.done_le_base hF hdel hlen ?_ h.ack_done
    (fun x hx => h.done_le_item hw ht hc hx)
  rintro f j hfj
  obtain ⟨rfl, rfl⟩ : g.done = f ∧ g.pos + 1 = j := by simpa using hfj
  omega

theorem Inv.recvLast (h : Inv F W g) {i : ℕ} {d : α} {w : List ℕ} (hw : g.wire = i :: w)
    (ht : g.log[i]? = some (.item g.done g.pos d)) (hc : g.current = some (g.done, g.pos))
    (hF : g.pos + 1 = F) (hFpos : 0 < F) (hWpos : 0 < W) :
    Inv F W { g with
      wire := w, current := some (g.done, g.pos + 1), pos := 0, done := g.done + 1,
      delivered := g.delivered ++ [d], acks := g.acks ++ [g.done] } := by
  obtain ⟨hdel, hlen⟩ := h.delivered_append ht
  have hnext : F * g.done + g.pos + 1 = F * (g.done + 1) + 0 := by
    rw [Nat.add_assoc, hF]; ring
  have hpipe := pipeline_item hw ht hc
  have hlt : g.done < g.base + W := by
    refine h.pipe_lt _ ?_
    rw [hpipe]
    simp
  refine h.receive (by rw [hw]; exact List.sublist_cons_self i w) ?_
    (by omega) (by omega) hFpos (hnext ▸ hdel) (hnext ▸ hlen) ?_ ?_ ?_
  · rw [pipeline_item_ack hw ht hc]
  · rintro f j hfj
    obtain ⟨rfl, rfl⟩ : g.done = f ∧ g.pos + 1 = j := by simpa using hfj
    omega
  · intro x hx
    rcases List.mem_append.mp hx with hx | hx
    · have := h.ack_done x hx
      omega
    · obtain rfl : x = g.done := by simpa using hx
      omega
  · -- the frames behind the completed one are less than a window behind it
    intro x hx
    rcases List.mem_append.mp hx with hx | hx
    · obtain rfl : x = g.done := by simpa using hx
      omega
    · have hpw := h.pipe_pairwise
      rw [hpipe] at hpw
      have := (List.pairwise_append.mp (List.pairwise_append.mp hpw).2.1).2.2 g.done
        (by simp) x (List.mem_cons_of_mem _ hx)
      omega

theorem Inv.recvOld (h : Inv F W g) {i f j : ℕ} {d : α} {w : List ℕ} (hw : g.wire = i :: w)
    (ht : g.log[i]? = some (.item f j d)) (hc : g.current = some (f, j))
    (hne : (f, j) ≠ (g.done, g.pos)) :
    Inv F W { g with wire := w, current := some (f, j + 1) } := by
  refine h.receive (by rw [hw]; exact List.sublist_cons_self i w) (pipeline_item_sublist hw ht hc)
    (Nat.le_refl _) h.done_le_base h.pos_lt h.delivered_eq h.delivered_le ?_ h.ack_done
    (fun x hx => h.done_le_item hw ht hc hx)
  rintro f' j' hfj
  obtain ⟨rfl, rfl⟩ : f = f' ∧ j + 1 = j' := by simpa using hfj
  have := h.current_le f j hc
  simp only [ne_eq, Prod.mk.injEq] at hne
  omega

theorem Inv.recvOldLast (h : Inv F W g) {i f j : ℕ} {d : α} {w : List ℕ} (hw : g.wire = i :: w)
    (ht : g.log[i]? = some (.item f j d)) (hc : g.current = some (f, j))
    (hne : (f, j) ≠ (g.done, g.pos)) (hF : j + 1 = F) :
    Inv F W { g with wire := w, current := some (f, j + 1), acks := g.acks ++ [f] } := by
  have hle := h.current_le f j hc
  have hpos := h.pos_lt
  have hlt : f < g.done := by
    simp only [ne_eq, Prod.mk.injEq] at hne
    omega
  refine h.receive (by rw [hw]; exact List.sublist_cons_self i w) ?_
    (Nat.le_refl _) h.done_le_base h.pos_lt h.delivered_eq h.delivered_le ?_ ?_
    (fun x hx => h.done_le_item hw ht hc hx)
  · rw [pipeline_item_ack hw ht hc]
  · rintro f' j' hfj
    obtain ⟨rfl, rfl⟩ : f = f' ∧ j + 1 = j' := by simpa using hfj
    omega
  · intro x hx
    rcases List.mem_append.mp hx with hx | hx
    · exact h.ack_done x hx
    · obtain rfl : x = f := by simpa using hx
      exact hlt

/-! ### Acknowledgements -/

theorem Inv.commit (h : Inv F W g) {a : List ℕ} (ha : g.acks = g.base :: a)
    (hout : 0 < g.outstanding) :
    Inv F W { g with acks := a, base := g.base + 1, outstanding := g.outstanding - 1 } := by
  have hpipe : g.pipeline =
      g.base :: { g with
        acks := a, base := g.base + 1, outstanding := g.outstanding - 1 }.pipeline := by
    simp [State.pipeline, State.wireFrames, ha]
  have hframe : g.base + 1 + (g.outstanding - 1) = g.base + g.outstanding := by omega
  have hpw := h.pipe_pairwise
  rw [hpipe, List.pairwise_cons] at hpw
  refine ⟨?_, ?_, ?_, h.pos_lt, h.sending_lt, ?_, h.delivered_eq, h.delivered_le, h.log_item,
    h.log_next, ?_, h.wire_lt, h.current_le, ?_, h.done_le, ?_, ?_, hpw.2⟩
  · have := h.window
    show g.outstanding - 1 + g.sending.toList.length ≤ W
    omega
  · exact h.ack_done g.base (by simp [ha])
  · have := h.done_le_base
    show g.done ≤ g.base + 1 + W
    omega
  · have := h.sent_le
    rwa [State.frame, ← hframe] at this
  · have := h.log_last
    rwa [State.frame, ← hframe] at this
  · exact fun x hx => h.ack_done x (by rw [ha]; exact List.mem_cons_of_mem _ hx)
  · intro x hx
    have := h.pipe_lt x (by rw [hpipe]; exact List.mem_cons_of_mem _ hx)
    show x < g.base + 1 + W
    omega
  · intro x hx
    have := hpw.1 x hx
    show g.base + 1 ≤ x + W
    omega

theorem Inv.goBack (h : Inv F W g) : Inv F W { g with sending := none, outstanding := 0 } :=
  { h with
    window := Nat.zero_le _
    sending_lt := by simp
    sent_le := by
      have := h.sent_le
      have hle : F * g.base ≤ F * g.frame := Nat.mul_le_mul_left _ (Nat.le_add_right _ _)
      show F * g.base + 0 ≤ g.source.length
      omega
    log_last := by simp }

theorem Inv.give (h : Inv F W g) (xs : List α) :
    Inv F W { g with source := g.source ++ xs } :=
  { h with
    sent_le := by
      have := h.sent_le
      show F * g.frame + g.sending.getD 0 ≤ (g.source ++ xs).length
      simp only [List.length_append]
      omega
    delivered_eq := by
      show g.delivered = (g.source ++ xs).take (F * g.done + g.pos)
      rw [List.take_append_of_le_length h.delivered_le]
      exact h.delivered_eq
    delivered_le := by
      have := h.delivered_le
      show F * g.done + g.pos ≤ (g.source ++ xs).length
      simp only [List.length_append]
      omega
    log_item := by
      intro i f j d hi
      obtain ⟨hj, hd⟩ := h.log_item i f j d hi
      have hlt := (List.getElem?_eq_some_iff.mp hd).1
      exact ⟨hj, by rw [List.getElem?_append_left hlt]; exact hd⟩ }

/-! ### Runs -/

theorem inv_start (hF : 0 < F) : Inv F W (State.start : State α) := by
  constructor <;>
    simp [State.start, State.frame, State.pipeline, State.wireFrames, hF]

/-- **Every step keeps the invariant.** -/
theorem Inv.step (hF : 0 < F) (hW : 0 < W) (h : Inv F W g) (hstep : Step F W g g') :
    Inv F W g' := by
  cases hstep with
  | give xs => exact h.give xs
  | header hnone hout => exact h.header hnone hout hF
  | item j d hj hlt hd => exact h.item hj hlt hd
  | lastItem j d hj hlast hd => exact h.lastItem hj hlast hd
  | goBack => exact h.goBack
  | lose w hw => exact h.lose hw
  | recvHeader i f w hw ht hf => exact h.recvHeader hw ht hf
  | recvNew i d w hw ht hc hpos => exact h.recvNew hw ht hc hpos
  | recvLast i d w hw ht hc hpos => exact h.recvLast hw ht hc hpos hF hW
  | recvOld i f j d w hw ht hc hne hlt => exact h.recvOld hw ht hc hne
  | recvOldLast i f j d w hw ht hc hne hlast => exact h.recvOldLast hw ht hc hne hlast
  | loseAck a ha => exact h.loseAck ha
  | commit a ha hout => exact h.commit ha hout

theorem inv_of_reachable (hF : 0 < F) (hW : 0 < W) (h : (system α F W).Reachable g) :
    Inv F W g :=
  h.invariant (fun _ hg => hg ▸ inv_start hF) fun _ _ hg hstep => hg.step hF hW hstep

/-! ### What the invariant says -/

/-- **In-order exactly-once delivery.** -/
theorem Inv.delivered_isPrefix (h : Inv F W g) : g.delivered <+: g.source := by
  rw [h.delivered_eq]
  exact List.take_prefix _ _

/-- A frame on the link lies in the `2 * W` numbers around the receiver's. -/
theorem Inv.header_window (h : Inv F W g) {i : ℕ} {t : Token α} (hi : i ∈ g.wire)
    (ht : g.log[i]? = some t) : g.done ≤ t.frame + W ∧ t.frame < g.done + W := by
  have hmem : t.frame ∈ g.wireFrames := List.mem_filterMap.mpr ⟨i, hi, by rw [ht]; rfl⟩
  have hlt := h.pipe_lt t.frame (List.mem_append_right _ (List.mem_append_right _ hmem))
  have := h.base_le
  exact ⟨h.done_le _ (List.mem_append_right _ hmem), by omega⟩

/-- The frame the receiver follows is at most a window behind. -/
theorem Inv.current_window (h : Inv F W g) {f j : ℕ} (hc : g.current = some (f, j)) :
    g.done ≤ f + W ∧ f ≤ g.done := by
  have := h.current_le f j hc
  exact ⟨h.done_le f (List.mem_append_left _ (by simp [hc])), by omega⟩

/-- An acknowledgement in flight lies in the `2 * W` numbers around the sender's. -/
theorem Inv.ack_window (h : Inv F W g) {a : ℕ} (ha : a ∈ g.acks) :
    g.base ≤ a + W ∧ a < g.base + W :=
  ⟨h.pipe_ge a (List.mem_append_left _ ha), h.pipe_lt a (List.mem_append_left _ ha)⟩

/-- **Commit safety.** All the items of a frame with an acknowledgement in flight have been
delivered. -/
theorem Inv.ack_delivered (h : Inv F W g) {a : ℕ} (ha : a ∈ g.acks) :
    F * (a + 1) ≤ g.delivered.length := by
  have hdone : a + 1 ≤ g.done := h.ack_done a ha
  have hle : F * (a + 1) ≤ F * g.done := Nat.mul_le_mul_left _ hdone
  have := h.delivered_le
  rw [h.delivered_eq, List.length_take]
  omega

end GoBackN

end LeapPlatforms
