import LeapPlatforms.Aurora.ReliableLink

/-!
# The receive side of a reliable link, read as go-back-N

What the receivers of the reliable drivers share: a receiver that follows a frame without error
knows, through its checksum, the place of the next flit in the sender's chain, and what it may
accept there is the item that follows the last one it accepted. The lemmas here turn the
acceptance of a genuine flit at the head of the path into a step of `GoBackN`.

## Main definitions

* `accepted` — the protocol after an item, in whichever of the four ways it was received
* `Chained` — where the receiver's chain stands

## Main results

* `step_accepted`
* `Reads.accept`, `Reads.header`
-/

namespace LeapPlatforms

namespace Aurora

open LossyLink (Flit Kind)
open GoBackN (State Token)

variable {φ δ : Type} {R : Reading φ δ} {C : FrameCounter}

/-- The protocol after the receiver took item `j` of frame `f`, whether it was new or repeated and
whether it was the last of its frame or not. -/
def accepted (F : ℕ) (g : State δ) (f j : ℕ) (d : δ) (w : List ℕ) : State δ :=
  { g with
    wire := w
    current := some (f, j + 1)
    pos := if (f, j) = (g.done, g.pos) then if j + 1 = F then 0 else j + 1 else g.pos
    done := if (f, j) = (g.done, g.pos) ∧ j + 1 = F then g.done + 1 else g.done
    delivered := if (f, j) = (g.done, g.pos) then g.delivered ++ [d] else g.delivered
    acks := if j + 1 = F then g.acks ++ [f] else g.acks }

theorem step_accepted {F W : ℕ} {g : State δ} {i f j : ℕ} {d : δ} {w : List ℕ}
    (hw : g.wire = i :: w) (ht : g.log[i]? = some (.item f j d)) (hc : g.current = some (f, j))
    (hj : j < F) : GoBackN.Step F W g (accepted F g f j d w) := by
  by_cases hnew : (f, j) = (g.done, g.pos)
  · obtain ⟨rfl, rfl⟩ := Prod.mk.inj hnew
    by_cases hlast : g.pos + 1 = F
    · have : accepted F g g.done g.pos d w = { g with
          wire := w, current := some (g.done, g.pos + 1), pos := 0, done := g.done + 1,
          delivered := g.delivered ++ [d], acks := g.acks ++ [g.done] } := by
        simp [accepted, hlast]
      rw [this]
      exact .recvLast g i d w hw ht hc hlast
    · have : accepted F g g.done g.pos d w = { g with
          wire := w, current := some (g.done, g.pos + 1), pos := g.pos + 1,
          delivered := g.delivered ++ [d] } := by
        simp [accepted, hlast]
      rw [this]
      exact .recvNew g i d w hw ht hc (by omega)
  · by_cases hlast : j + 1 = F
    · have : accepted F g f j d w = { g with
          wire := w, current := some (f, j + 1), acks := g.acks ++ [f] } := by
        simp only [accepted, hnew, hlast, if_false, if_true, false_and]
      rw [this]
      exact .recvOldLast g i f j d w hw ht hc hnew hlast
    · have : accepted F g f j d w = { g with wire := w, current := some (f, j + 1) } := by
        simp only [accepted, hnew, hlast, if_false, and_false]
      rw [this]
      exact .recvOld g i f j d w hw ht hc hnew (by omega)

/-- The chain of a receiver stands after the token that precedes item `j` of frame `f`. -/
def Chained (chain : Option ℕ) (g : State δ) (f j : ℕ) : Prop :=
  ∀ i, chain = some i → ∃ k t, i = k + 1 ∧ g.log[k]? = some t ∧ t.next = (f, j)

theorem Chained.mono {chain : Option ℕ} {g g' : State δ} {f j : ℕ} (h : Chained chain g f j)
    (hlog : g.log <+: g'.log) : Chained chain g' f j := by
  intro i hi
  obtain ⟨k, t, hk, ht, hnext⟩ := h i hi
  obtain ⟨rest, hrest⟩ := hlog
  refine ⟨k, t, hk, ?_, hnext⟩
  rw [← hrest, List.getElem?_append_left (List.getElem?_eq_some_iff.mp ht).1]
  exact ht

namespace Reads

variable {tx : Sender δ} {flits back : List (Flit φ)} {sent : ℕ} {ackTX : List ℕ} {g : State δ}
  {x : Flit φ}

/-- The first flit of the path, if it is chained, is the first token on the link. -/
theorem wire_cons (h : Reads R C tx (x :: flits) sent back ackTX g)
    (hx : (R.kind x.orig).chained = true) :
    ∃ w t, g.wire = x.seqno :: w ∧ g.log[x.seqno]? = some t ∧ R.encodes x.orig t ∧
      w = (flits.filter fun y => (R.kind y.orig).chained).map Flit.seqno := by
  obtain ⟨t, ht, henc⟩ := h.carries.token x (by simp) hx
  have hwire := h.carries.wire
  rw [List.filter_cons_of_pos (by simpa using hx), List.map_cons] at hwire
  exact ⟨_, t, hwire, ht, henc, rfl⟩

/-- What remains of the path after its first flit. -/
theorem carries_tail (h : Reads R C tx (x :: flits) sent back ackTX g) {g' : State δ}
    (hlog : g'.log = g.log)
    (hwire : g'.wire = (flits.filter fun y => (R.kind y.orig).chained).map Flit.seqno) :
    Carries R flits sent g' where
  sent := by rw [hlog]; exact h.carries.sent
  wire := hwire
  token := by
    rw [hlog]
    exact fun y hy hc => h.carries.token y (List.mem_cons_of_mem _ hy) hc

/-- **An item is accepted.** A payload flit that continues the receiver's chain is the item that
follows what the receiver accepted before. -/
theorem accept (h : Reads R C tx (x :: flits) sent back ackTX g)
    (hinv : GoBackN.Inv C.size maxFrames g) {f j : ℕ} (hkind : R.kind x.orig = .payload)
    (hcur : g.current = some (f, j)) (hchain : Chained (some x.seqno) g f j) :
    ∃ d w, R.encodes x.orig (.item f j d) ∧ j < C.size ∧
      GoBackN.Step C.size maxFrames g (accepted C.size g f j d w) ∧
      Reads R C tx flits sent back (if j + 1 = C.size then ackTX ++ [wrap f] else ackTX)
        (accepted C.size g f j d w) ∧
      Chained (some (x.seqno + 1)) (accepted C.size g f j d w) f (j + 1) := by
  obtain ⟨w, t, hw, ht, henc, htail⟩ := h.wire_cons (by rw [hkind]; rfl)
  obtain ⟨f', j', d, rfl⟩ := R.item_of_encodes _ _ hkind henc
  obtain ⟨k, u, hk, hu, hnext⟩ := hchain _ rfl
  have hitem : (f', j') = (f, j) := by
    rcases hinv.log_next k u _ hu (hk ▸ ht) with ⟨n, hn⟩ | ⟨d', hd'⟩
    · cases hn
    · cases hd'
      rw [← hnext]
  obtain ⟨rfl, rfl⟩ := Prod.mk.inj hitem
  have hj : j' < C.size := (hinv.log_item _ _ _ _ ht).1
  refine ⟨d, w, henc, hj, step_accepted hw ht hcur hj,
    ⟨{ h.sends with }, h.carries_tail rfl htail, ?_⟩, ?_⟩
  · by_cases hlast : j' + 1 = C.size
    · simp only [accepted, hlast, if_true]
      exact h.returns.queue f'
    · simp only [accepted, hlast, if_false]
      exact h.returns
  · intro i hi
    obtain rfl := Option.some.inj hi
    exact ⟨x.seqno, _, rfl, ht, rfl⟩

/-- **A header is accepted.** The frame it starts lies in the window around the receiver's, and if
it does not lie beyond, the receiver may follow it. -/
theorem header (h : Reads R C tx (x :: flits) sent back ackTX g)
    (hinv : GoBackN.Inv C.size maxFrames g) (hkind : R.kind x.orig = .header) :
    ∃ f w, R.encodes x.orig (.header f) ∧ g.done ≤ f + maxFrames ∧ f < g.done + maxFrames ∧
      (f ≤ g.done → GoBackN.Step C.size maxFrames g { g with wire := w, current := some (f, 0) } ∧
        Reads R C tx flits sent back ackTX { g with wire := w, current := some (f, 0) } ∧
        Chained (some (x.seqno + 1)) { g with wire := w, current := some (f, 0) } f 0) := by
  obtain ⟨w, t, hw, ht, henc, htail⟩ := h.wire_cons (by rw [hkind]; rfl)
  obtain ⟨f, rfl⟩ := R.header_of_encodes _ _ hkind henc
  obtain ⟨hlo, hhi⟩ := hinv.header_window (by rw [hw]; simp) ht
  refine ⟨f, w, henc, hlo, hhi, fun hle => ⟨.recvHeader g _ f w hw ht hle,
    ⟨{ h.sends with }, h.carries_tail rfl htail, h.returns⟩, ?_⟩⟩
  intro i hi
  obtain rfl := Option.some.inj hi
  exact ⟨x.seqno, _, rfl, ht, rfl⟩

end Reads

end Aurora

end LeapPlatforms
