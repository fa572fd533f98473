import LeapPlatforms.Aurora.Grouped
import LeapPlatforms.Aurora.ReliableReceive

/-!
# The receive side with grouped checksums, read as go-back-N

A receiver that looks at a checksum only at the end of a group hands data flits on before it knows
whether they are right. Read as `GoBackN`, it has not received them: the flits of an open group stay
on the protocol's link (`held`), and are received all at once when the group's checksum turns out
right, or lost when it does not. What the receiver has to get right for that is its registers: while
a group is open the frame position runs ahead by the flits held, and outside a group it stands at
the protocol's resume point, between two words.

## Main definitions

* `Grouped.reading` — how the flits are read
* `Encodes` — a row of flits that carries consecutive items
* `Open` — the registers while a group is open
* `Receives`

## Main results

* `Reads.acceptAll` — a group whose chain is unbroken is a row of consecutive items
* `Open.fresh_iff` — the comparison of positions is right in the middle of a group
* `Open.endsGroup_iff`
* `Receives.mono` — what the other parties do keeps it
-/

namespace LeapPlatforms

namespace Aurora

open LossyLink (Flit Kind observe)
open GoBackN (State Token)

namespace Grouped

variable {F : Format}

variable (F) in
/-- How the flits are read. -/
def reading : Reading (Raw F) (Data F) where
  kind := kind
  ackOf f := if kind f = .control ∧ tagOf f = F.ack then some (sequenceOf f) else none
  encodes f
    | .header n => f = packControl F.header (wrap n)
    | .item _ j d => ∃ parity, f = packFragment parity ((j + 1) % F.interfaceWords == 0) d
  header_of_encodes := by
    rintro f (n | ⟨n, j, d⟩) hkind henc
    · exact ⟨n, rfl⟩
    · obtain ⟨parity, rfl⟩ := henc
      rw [kind_packFragment] at hkind
      cases hkind
  item_of_encodes := by
    rintro f (n | ⟨n, j, d⟩) hkind henc
    · rw [henc, kind_header] at hkind
      cases hkind
    · exact ⟨n, j, d, rfl⟩

/-! ### A row of flits -/

/-- Unaltered flits that carry items `ds` of frame `f`, from position `j` on. -/
inductive Encodes (f : ℕ) : ℕ → List (Flit (Raw F)) → List (Data F) → Prop
  | nil (j : ℕ) : Encodes f j [] []
  | cons {j : ℕ} {x : Flit (Raw F)} {d : Data F} {l : List (Flit (Raw F))} {ds : List (Data F)} :
      x.raw = x.orig → (reading F).encodes x.orig (.item f j d) → Encodes f (j + 1) l ds →
      Encodes f j (x :: l) (d :: ds)

theorem Encodes.length_eq {f j : ℕ} {l : List (Flit (Raw F))} {ds : List (Data F)}
    (h : Encodes f j l ds) : ds.length = l.length := by
  induction h with
  | nil => rfl
  | cons _ _ _ ih => simp [ih]

/-- Only the last flit of a word carries a checksum. -/
theorem Encodes.map_dataOf {f j : ℕ} {l : List (Flit (Raw F))} {ds : List (Data F)}
    (h : Encodes f j l ds) (hl : l ≠ []) (hj : j % F.interfaceWords + l.length = F.interfaceWords) :
    ∃ (ds₀ : List (Data F)) (d : Data F) (mixHash : Bool) (hash : BitVec 8), ds = ds₀ ++ [d] ∧
      (l.map fun x => dataOf x.raw) = ds₀ ++ [d ||| if mixHash then hash.setWidth _ else 0] := by
  induction h with
  | nil => exact absurd rfl hl
  | @cons j x d l ds hraw henc htail ih =>
    obtain ⟨parity, hpack⟩ := henc
    have hdata : dataOf x.raw = d ||| if ((j + 1) % F.interfaceWords == 0) then
        (hashTX parity (fragmentData d)).setWidth _ else 0 := by
      rw [hraw, hpack, dataOf_packFragment]
    cases htail with
    | nil =>
      refine ⟨[], d, (j + 1) % F.interfaceWords == 0, hashTX parity (fragmentData d), rfl, ?_⟩
      rw [List.map_singleton, hdata, List.nil_append]
    | cons hraw' henc' htail' =>
      rw [List.length_cons, List.length_cons] at hj
      have hnext : (j + 1) % F.interfaceWords = j % F.interfaceWords + 1 := by
        rw [← Nat.mod_add_mod, Nat.mod_eq_of_lt (by omega)]
      obtain ⟨ds₀, d', mixHash, hash, hds, hmap⟩ := ih (by simp) (by
        rw [hnext, List.length_cons]
        omega)
      refine ⟨d :: ds₀, d', mixHash, hash, by rw [hds, List.cons_append], ?_⟩
      have hzero : ((j + 1) % F.interfaceWords == 0) = false := by
        rw [hnext]
        simp
      rw [List.map_cons, hmap, hdata, hzero, List.cons_append]
      simp

/-- The data flits of a group make up the word that its items make up. -/
theorem Encodes.unpad_join {f j : ℕ} {l : List (Flit (Raw F))} {ds : List (Data F)}
    (h : Encodes f j l ds) (hlen : l.length = F.interfaceWords) (hj : F.interfaceWords ∣ j) :
    unpad (Marshal.join F.interfaceWords (l.map fun x => dataOf x.raw)) =
      unpad (Marshal.join F.interfaceWords ds) := by
  have hl : l ≠ [] := by
    intro hnil
    have := F.interfaceWords_pos
    rw [hnil, List.length_nil] at hlen
    omega
  obtain ⟨ds₀, d, mixHash, hash, rfl, hmap⟩ := h.map_dataOf hl (by
    rw [Nat.mod_eq_zero_of_dvd hj, Nat.zero_add, hlen])
  rw [hmap, unpad_join_mix]

theorem observe_payload {chain : Option ℕ} {x : Flit (Raw F)} {i : ℕ}
    (hkind : kind x.raw = .payload) (h : observe kind chain x = some i) :
    x.raw = x.orig ∧ chain = some x.seqno ∧ i = x.seqno + 1 := by
  rw [observe, hkind] at h
  split at h
  · cases ‹Kind.payload = Kind.header›
  · split at h
    · next hc => exact ⟨hc.1, hc.2, (Option.some.inj h).symm⟩
    · cases h
  · cases ‹Kind.payload = Kind.control›

theorem foldl_observe_none {l : List (Flit (Raw F))} (hpay : ∀ x ∈ l, kind x.raw = .payload) :
    l.foldl (observe kind) none = none := by
  induction l with
  | nil => rfl
  | cons x l ih =>
    have hx : observe kind none x = none := by
      simp [observe, hpay x (by simp)]
    rw [List.foldl_cons, hx]
    exact ih fun y hy => hpay y (List.mem_cons_of_mem _ hy)

/-- What the receiver of the protocol has after it took items `ds` of frame `f` from `j` on. -/
structure Took (C : FrameCounter) (g g' : State (Data F)) (f j : ℕ) (ds : List (Data F)) : Prop where
  /-- It follows the frame. -/
  current : g'.current = some (f, j + ds.length)
  /-- New items are delivered. -/
  new : f = g.done → j = g.pos → g'.delivered = g.delivered ++ ds ∧
    (if j + ds.length = C.size then g'.done = g.done + 1 ∧ g'.pos = 0
      else g'.done = g.done ∧ g'.pos = j + ds.length)
  /-- Old ones are not. -/
  old : f ≠ g.done ∨ j + ds.length ≤ g.pos →
    g'.delivered = g.delivered ∧ g'.done = g.done ∧ g'.pos = g.pos

theorem took_single {C : FrameCounter} {g : State (Data F)} {f j : ℕ} {d : Data F} {w : List ℕ} :
    Took C g (accepted C.size g f j d w) f j [d] where
  current := rfl
  new := by
    rintro rfl rfl
    by_cases hlast : g.pos + 1 = C.size <;> simp [accepted, hlast]
  old h := by
    have hne : (f, j) ≠ (g.done, g.pos) := by
      rintro heq
      obtain ⟨rfl, rfl⟩ := Prod.mk.inj heq
      simp at h
    simp only [accepted, hne, if_false, false_and, and_self]

theorem Took.cons {C : FrameCounter} {g g' : State (Data F)} {f j : ℕ} {d : Data F} {w : List ℕ}
    {ds : List (Data F)} (h : Took C (accepted C.size g f j d w) g' f (j + 1) ds)
    (hj : j + 1 ≠ C.size) : Took C g g' f j (d :: ds) where
  current := by
    rw [h.current, List.length_cons, Nat.add_right_comm, Nat.add_assoc]
  new := by
    rintro rfl rfl
    obtain ⟨hdel, hpos⟩ := h.new (by simp [accepted, hj]) (by simp [accepted, hj])
    refine ⟨by simp [hdel, accepted], ?_⟩
    rw [List.length_cons, Nat.add_comm ds.length 1, ← Nat.add_assoc]
    simpa [accepted, hj] using hpos
  old hold := by
    rw [List.length_cons] at hold
    have hne : (f, j) ≠ (g.done, g.pos) := by
      rintro heq
      obtain ⟨rfl, rfl⟩ := Prod.mk.inj heq
      rcases hold with hold | hold
      · exact hold rfl
      · omega
    have hsame : (accepted C.size g f j d w).delivered = g.delivered ∧
        (accepted C.size g f j d w).done = g.done ∧ (accepted C.size g f j d w).pos = g.pos := by
      simp only [accepted, hne, if_false, false_and, and_self]
    obtain ⟨hdel, hdone, hpos⟩ := hsame
    have := h.old (by rw [hdone, hpos]; omega)
    rwa [hdel, hdone, hpos] at this

/-- **A group is accepted.** Payload flits over which the receiver's chain is unbroken are
consecutive items, and the protocol's receiver takes them one after the other. -/
theorem acceptAll {C : FrameCounter} {tx : Sender (Data F)} {flits back : List (Flit (Raw F))}
    {sent : ℕ} {f i : ℕ} {l : List (Flit (Raw F))} (hl : l ≠ [])
    (hpay : ∀ x ∈ l, kind x.raw = .payload) {j : ℕ} {ackTX : List ℕ} {chain : Option ℕ}
    {g : State (Data F)} (hg : (GoBackN.system (Data F) C.size maxFrames).Reachable g)
    (h : Reads (reading F) C tx (l ++ flits) sent back ackTX g)
    (hcur : g.current = some (f, j)) (hchain : Chained chain g f j)
    (hfold : l.foldl (observe kind) chain = some i) :
    ∃ ds g', (GoBackN.system (Data F) C.size maxFrames).Reachable g' ∧ Encodes f j l ds ∧
      j + l.length ≤ C.size ∧ Took C g g' f j ds ∧ Chained (some i) g' f (j + l.length) ∧
      Reads (reading F) C tx flits sent back
        (if j + l.length = C.size then ackTX ++ [wrap f] else ackTX) g' := by
  induction l generalizing j ackTX chain g with
  | nil => exact absurd rfl hl
  | cons x l ih =>
    have hpayx : kind x.raw = .payload := hpay x (by simp)
    have hpayl : ∀ y ∈ l, kind y.raw = .payload := fun y hy => hpay y (List.mem_cons_of_mem _ hy)
    rw [List.foldl_cons] at hfold
    obtain ⟨k, hk⟩ : ∃ k, observe kind chain x = some k := by
      rw [← Option.ne_none_iff_exists']
      intro hnone
      rw [hnone, foldl_observe_none hpayl] at hfold
      cases hfold
    obtain ⟨hraw, hnext, rfl⟩ := observe_payload hpayx hk
    obtain ⟨d, w, henc, hj, hstep, hreads, hchain'⟩ := h.accept
      (GoBackN.inv_of_reachable C.size_pos (by decide) hg) (hraw ▸ hpayx) hcur (hnext ▸ hchain)
    rw [hk] at hfold
    by_cases hnil : l = []
    · subst hnil
      obtain rfl := Option.some.inj hfold
      exact ⟨[d], _, hg.step hstep, .cons hraw henc (.nil _), hj, took_single, hchain', hreads⟩
    · obtain ⟨ds, g', hg', hencs, hlen, htook, hchain'', hreads'⟩ :=
        ih hnil hpayl (hg.step hstep) hreads rfl hchain' hfold
      have hpos : 0 < l.length := List.length_pos_iff.mpr hnil
      have hne : j + 1 ≠ C.size := by omega
      have hsum : j + 1 + l.length = j + (x :: l).length := by
        rw [List.length_cons]
        omega
      rw [hsum] at hlen hchain'' hreads'
      rw [if_neg hne] at hreads'
      exact ⟨d :: ds, g', hg', .cons hraw henc hencs, hlen, htook.cons hne, hchain'', hreads'⟩

/-! ### The registers -/

theorem interfaceWords_dvd_size : F.interfaceWords ∣ F.frameCounter.size := Nat.dvd_mul_left _ _

theorem size_le_pow : F.frameCounter.size ≤ 2 ^ F.frameCounter.width := F.frameCounter.size_le

/-- Between two words there is room for another. -/
theorem add_interfaceWords_le {a b : ℕ} (ha : F.interfaceWords ∣ a) (hb : F.interfaceWords ∣ b)
    (h : a < b) : a + F.interfaceWords ≤ b := by
  obtain ⟨k, rfl⟩ := ha
  obtain ⟨m, rfl⟩ := hb
  have hkm : k + 1 ≤ m := Nat.lt_of_mul_lt_mul_left h
  calc F.interfaceWords * k + F.interfaceWords = F.interfaceWords * (k + 1) := by ring
    _ ≤ F.interfaceWords * m := Nat.mul_le_mul_left _ hkm

/-- Inside a group the frame does not end. -/
theorem not_isLast_of_short {j k : ℕ} (hj : F.interfaceWords ∣ j) (hle : j ≤ F.frameCounter.size)
    (hk : k + 1 < F.interfaceWords) :
    F.frameCounter.isLast ((j + k) % 2 ^ F.frameCounter.width) = false := by
  have hN := size_le_pow (F := F)
  have hroom : F.interfaceWords ≤ F.frameCounter.size :=
    Nat.le_of_dvd F.frameCounter.size_pos interfaceWords_dvd_size
  have hmark : F.frameCounter.mark = F.frameCounter.size := rfl
  rw [FrameCounter.isLast, FrameCounter.succ, Nat.mod_add_mod, hmark, beq_eq_false_iff_ne]
  intro heq
  rcases Nat.lt_or_eq_of_le hle with hlt | rfl
  · have hnext := add_interfaceWords_le hj interfaceWords_dvd_size hlt
    rw [Nat.mod_eq_of_lt (a := j + k + 1) (by omega)] at heq
    rcases Nat.lt_or_eq_of_le hN with hs | hs
    · rw [Nat.mod_eq_of_lt hs] at heq
      omega
    · rw [hs, Nat.mod_self] at heq
      omega
  · have hk0 := Nat.sub_mod_eq_zero_of_mod_eq heq
    rw [Nat.add_assoc, Nat.add_sub_cancel_left, Nat.mod_eq_of_lt (by omega)] at hk0
    omega

/-- Nothing, or a word that waits to be dequeued. -/
def Settled (l : List (Data F)) : Prop := l = [] ∨ l.length = F.interfaceWords

/-- The words for the user: those put into `serdesRxfifo`, and one that waits in the
demarshaller. -/
def Core.output (e : Core F) : List (Word F) :=
  e.enqueued ++ if e.demarshaller.length = F.interfaceWords then
    [unpad (Marshal.join F.interfaceWords e.demarshaller)] else []

theorem Core.output_of_short {e : Core F} (h : e.demarshaller.length < F.interfaceWords) :
    e.output = e.enqueued := by
  rw [Core.output, if_neg (by omega), List.append_nil]

theorem Core.output_of_full {e : Core F} (h : e.demarshaller.length = F.interfaceWords) :
    e.output = e.enqueued ++ [unpad (Marshal.join F.interfaceWords e.demarshaller)] := by
  rw [Core.output, if_pos h]

/-- Words in the receiver's hands are those of the protocol's items, and its numbers are the
protocol's. -/
structure Holds (e : Core F) (g : State (Data F)) : Prop where
  /-- The frame that is not complete. -/
  sequence : e.sequenceNumberRX = wrap g.done
  /-- The resume point lies between two words. -/
  aligned : F.interfaceWords ∣ g.pos
  /-- Every word is one group of items. -/
  words : ∃ groups : List (List (Data F)), g.delivered = groups.flatten ∧
    (∀ l ∈ groups, l.length = F.interfaceWords) ∧
    e.output = groups.map fun l => unpad (Marshal.join F.interfaceWords l)

/-- Outside a group the frame position is the resume point. -/
structure Closed (e : Core F) (g : State (Data F)) : Prop extends Holds e g where
  /-- The frame position. -/
  position : e.framePositionRX = g.pos
  /-- No word is incomplete. -/
  settled : Settled e.demarshaller

/-- A group of frame position `j` is open, and the flits `held` of it were received. -/
structure Open (e : Core F) (chain : Option ℕ) (g : State (Data F)) (j : ℕ)
    (held : List (Flit (Raw F))) : Prop where
  /-- They are payload flits. -/
  payload : ∀ x ∈ held, kind x.raw = .payload
  /-- They are counted. -/
  fragment : e.fragmentNumberRX = held.length
  /-- The group is not complete. -/
  short : held.length < F.interfaceWords
  /-- A group starts between two words. -/
  aligned : F.interfaceWords ∣ j
  /-- And in its frame. -/
  le_size : j ≤ F.frameCounter.size
  /-- The position in the frame counts them, too. -/
  provisional : e.provisionalFramePositionRX = (j + held.length) % 2 ^ F.frameCounter.width
  /-- The receiver follows a frame without error up to the group, or it took an altered header for
  a header and will find out at the end of the group. -/
  start : (∃ f chain₀, g.current = some (f, j) ∧ e.provisionalSequenceNumberRX = wrap f ∧
    Chained chain₀ g f j ∧ chain = held.foldl (observe kind) chain₀) ∨ j = 0 ∧ chain = none
  /-- If the group is the one the receiver waits for, its flits are in the demarshaller. -/
  new : e.provisionalSequenceNumberRX = e.sequenceNumberRX → j = g.pos →
    e.framePositionRX = g.pos + held.length ∧
      (held = [] ∧ Settled e.demarshaller ∨
        held ≠ [] ∧ e.demarshaller = held.map fun x => dataOf x.raw)
  /-- If it is not, they are nowhere. -/
  old : ¬ (e.provisionalSequenceNumberRX = e.sequenceNumberRX ∧ j = g.pos) →
    e.framePositionRX = g.pos ∧ Settled e.demarshaller

/-- The receive side is read as the receiver of `g`. -/
def Receives (e : Core F) (chain : Option ℕ) (g : State (Data F))
    (held : List (Flit (Raw F))) : Prop :=
  (e.frameErrorRX = true ∧ held = [] ∧ Closed e g) ∨
    (e.frameErrorRX = false ∧ Holds e g ∧ ∃ j, Open e chain g j held)

theorem Holds.mono {e : Core F} {g g' : State (Data F)} (h : Holds e g) (hs : SameReceiver g g') :
    Holds e g' where
  sequence := by rw [hs.done]; exact h.sequence
  aligned := by rw [hs.pos]; exact h.aligned
  words := by rw [hs.delivered]; exact h.words

theorem Closed.mono {e : Core F} {g g' : State (Data F)} (h : Closed e g)
    (hs : SameReceiver g g') : Closed e g' where
  toHolds := h.toHolds.mono hs
  position := h.position.trans hs.pos.symm
  settled := h.settled

theorem Receives.mono {e : Core F} {chain : Option ℕ} {g g' : State (Data F)}
    {held : List (Flit (Raw F))} (h : Receives e chain g held) (hs : SameReceiver g g') :
    Receives e chain g' held := by
  rcases h with ⟨herr, hheld, hclosed⟩ | ⟨herr, hholds, j, hopen⟩
  · exact Or.inl ⟨herr, hheld, hclosed.mono hs⟩
  · refine Or.inr ⟨herr, hholds.mono hs, j, { hopen with start := ?_, new := ?_, old := ?_ }⟩
    · refine hopen.start.imp_left ?_
      rintro ⟨f, chain₀, hcur, hseq, hchain, hfold⟩
      exact ⟨f, chain₀, hs.current.trans hcur, hseq, hchain.mono hs.log, hfold⟩
    · rw [hs.pos]
      exact hopen.new
    · rw [hs.pos]
      exact hopen.old

variable {e e' : Core F} {chain : Option ℕ} {g : State (Data F)} {held : List (Flit (Raw F))}
  {j : ℕ}

/-- The frame that the receiver follows is the one it waits for exactly if the numbers are the
same. -/
theorem Holds.sequence_eq_iff (h : Holds e g) (hinv : GoBackN.Inv F.frameCounter.size maxFrames g)
    {f : ℕ} (hcur : g.current = some (f, j)) (hseq : e.provisionalSequenceNumberRX = wrap f) :
    e.provisionalSequenceNumberRX = e.sequenceNumberRX ↔ f = g.done := by
  obtain ⟨hlo, hle⟩ := hinv.current_window hcur
  rw [hseq, h.sequence]
  refine ⟨fun hwrap => ?_, fun hf => by rw [hf]⟩
  exact wrap_injOn_window hwrap hlo (by simp only [maxFrames]; omega) (Nat.le_add_right _ _)
    (by simp [maxFrames])

/-- A group whose frame number is the awaited one starts inside the frame. -/
theorem Open.lt_size (h : Open e chain g j held) (hh : Holds e g)
    (hinv : GoBackN.Inv F.frameCounter.size maxFrames g)
    (hseq : e.provisionalSequenceNumberRX = e.sequenceNumberRX) : j < F.frameCounter.size := by
  rcases h.start with ⟨f, chain₀, hcur, hf, _⟩ | ⟨rfl, _⟩
  · have hdone := (hh.sequence_eq_iff hinv hcur hf).mp hseq
    have hle := hinv.current_le f j hcur
    have := hinv.pos_lt
    omega
  · exact F.frameCounter.size_pos

/-- **The comparison of positions** finds out, at every flit of a group, whether the group is the
one the receiver waits for. -/
theorem Open.fresh_iff (h : Open e chain g j held) (hh : Holds e g)
    (hinv : GoBackN.Inv F.frameCounter.size maxFrames g) :
    e.fresh = true ↔ e.provisionalSequenceNumberRX = e.sequenceNumberRX ∧ j = g.pos := by
  have hN := size_le_pow (F := F)
  have hshort := h.short
  rw [Core.fresh, Bool.and_eq_true, beq_iff_eq, beq_iff_eq]
  constructor
  · rintro ⟨hpos, hseq⟩
    refine ⟨hseq, ?_⟩
    by_contra hne
    have hroom := add_interfaceWords_le h.aligned interfaceWords_dvd_size (h.lt_size hh hinv hseq)
    obtain ⟨hstale, _⟩ := h.old fun hw => hne hw.2
    rw [h.provisional, hstale, Nat.mod_eq_of_lt (by omega)] at hpos
    have hdvd : F.interfaceWords ∣ held.length :=
      (Nat.dvd_add_right h.aligned).mp (hpos ▸ hh.aligned)
    have hzero : held.length = 0 := Nat.eq_zero_of_dvd_of_lt hdvd hshort
    omega
  · rintro ⟨hseq, rfl⟩
    obtain ⟨hnew, _⟩ := h.new hseq rfl
    have hroom := add_interfaceWords_le h.aligned interfaceWords_dvd_size hinv.pos_lt
    exact ⟨by rw [h.provisional, hnew, Nat.mod_eq_of_lt (by omega)], hseq⟩

theorem Open.endsGroup_iff (h : Open e chain g j held) :
    e.endsGroup = true ↔ held.length + 1 = F.interfaceWords := by
  rw [Core.endsGroup, h.fragment]
  exact FrameCounter.isLast_iff (C := F.fragmentCounter) h.short

end Grouped

end Aurora

end LeapPlatforms
