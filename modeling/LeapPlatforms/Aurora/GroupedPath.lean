import LeapPlatforms.Aurora.GroupedReceive

/-!
# One direction of a link with grouped checksums

`Path` puts a transmit side, the flits on their way, the acknowledgements on their way back and a
receive side together, and says that some reachable state of `GoBackN` is what they are. What
happens to each of them keeps the path: the lemmas on the sending side are those of `Reads`, the
lemmas on the receiving side are one for each thing the receiver can do with the flit at the head of
its queue.

## Main definitions

* `Path`, `Idle` — with a receiver in any phase, or outside a group
* `RolledBack` — what a receiver does when it gives a group up

## Main results

* `Path.hold`, `Path.complete` — a payload flit is accepted
* `Path.idle_of_rollBack`, `Idle.error`, `Idle.header` — a group is given up, a frame started
* `Path.output_isPrefix` — the words in the receiver's hands begin the sender's
-/

namespace LeapPlatforms

namespace Aurora

open LossyLink (Flit Kind observe)
open GoBackN (State Token)

namespace Grouped

variable {F : Format}

/-- The protocol, for frames of this format. -/
abbrev protocol (F : Format) : TransitionSystem (State (Data F)) :=
  GoBackN.system (Data F) F.frameCounter.size maxFrames

/-- One direction: a transmit side, `queue` on its way to the receive side of `e`, `back` on its way
back. -/
def Path (tx : Sender (Data F)) (queue : List (Flit (Raw F))) (sent : ℕ)
    (back : List (Flit (Raw F))) (e : Core F) (chain : Option ℕ) : Prop :=
  ∃ g held, (protocol F).Reachable g ∧
    Reads (reading F) F.frameCounter tx (held ++ queue) sent back e.ackSequenceNumberTX g ∧
    Receives e chain g held

/-- One direction whose receiver is not in a group. -/
def Idle (tx : Sender (Data F)) (queue : List (Flit (Raw F))) (sent : ℕ)
    (back : List (Flit (Raw F))) (e : Core F) : Prop :=
  ∃ g, (protocol F).Reachable g ∧
    Reads (reading F) F.frameCounter tx queue sent back e.ackSequenceNumberTX g ∧ Closed e g

variable {tx tx' : Sender (Data F)} {queue queue' back back' : List (Flit (Raw F))} {sent : ℕ}
  {e e' : Core F} {chain chain' : Option ℕ} {g : State (Data F)} {held : List (Flit (Raw F))}
  {x : Flit (Raw F)} {j : ℕ}

theorem inv_of_reachable (h : (protocol F).Reachable g) :
    GoBackN.Inv F.frameCounter.size maxFrames g :=
  GoBackN.inv_of_reachable F.frameCounter.size_pos (by decide) h

/-! ### The sending side and the links -/

/-- What leaves the receiver alone keeps the path. -/
theorem Path.follow (hg : (protocol F).Reachable g) (hreceives : Receives e chain g held)
    (h : ∃ g', Follows F.frameCounter g g' ∧
      Reads (reading F) F.frameCounter tx' (held ++ queue') sent back' e.ackSequenceNumberTX g') :
    Path tx' queue' sent back' e chain := by
  obtain ⟨g', hfollow, hreads⟩ := h
  exact ⟨g', held, hg.steps hfollow.1, hreads, hreceives.mono hfollow.2⟩

theorem Path.quiet (h : Path tx queue sent back e chain)
    (hq : Sender.Quiet F.frameCounter tx tx') : Path tx' queue sent back e chain := by
  obtain ⟨g, held, hg, hreads, hreceives⟩ := h
  exact .follow hg hreceives (hreads.quiet (inv_of_reachable hg) hq)

theorem Path.txHeader (h : Path tx queue sent back e chain) {seq : ℕ}
    (ht : tx.txHeader = some (tx', seq)) :
    Path tx' (queue ++ [⟨packControl F.header seq, false, packControl F.header seq, sent⟩])
      (sent + 1) back e chain := by
  obtain ⟨g, held, hg, hreads, hreceives⟩ := h
  have hkind : (kind (packControl F.header seq)).chained = true := by
    rw [kind_header]
    rfl
  obtain ⟨g', hfollow, hreads'⟩ := hreads.txHeader ht hkind (by rintro n rfl; rfl)
  rw [List.append_assoc] at hreads'
  exact ⟨g', held, hg.steps hfollow.1, hreads', hreceives.mono hfollow.2⟩

/-- A data flit is sent; the sender mixes the checksum in at the end of a word. -/
theorem Path.txSend (h : Path tx queue sent back e chain) {d : Data F}
    (ht : tx.txSend F.frameCounter = some (tx', d)) {mixHash : Bool}
    (hmix : mixHash = ((tx.framePositionTX + 1) % F.interfaceWords == 0)) (parity : BitVec 8) :
    Path tx' (queue ++ [⟨packFragment parity mixHash d, false, packFragment parity mixHash d, sent⟩])
      (sent + 1) back e chain := by
  obtain ⟨g, held, hg, hreads, hreceives⟩ := h
  have hkind : (kind (packFragment parity mixHash d)).chained = true := by
    rw [kind_packFragment]
    rfl
  obtain ⟨g', hfollow, hreads'⟩ := hreads.txSend ht hkind (fun n => ⟨parity, by rw [hmix]⟩)
  rw [List.append_assoc] at hreads'
  exact ⟨g', held, hg.steps hfollow.1, hreads', hreceives.mono hfollow.2⟩

/-- The sender's position in the frame in progress. -/
theorem Path.position_lt (h : Path tx queue sent back e chain) (hp : tx.frameInProgress = true) :
    tx.framePositionTX < F.frameCounter.size := by
  obtain ⟨g, held, hg, hreads, hreceives⟩ := h
  exact hreads.sends.books.position_lt hp

/-- A flit outside the chain is sent. -/
theorem Path.sendControl (h : Path tx queue sent back e chain) (hx : kind x.orig = .control) :
    Path tx (queue ++ [x]) sent back e chain := by
  obtain ⟨g, held, hg, hreads, hreceives⟩ := h
  refine ⟨g, held, hg, { hreads with carries := ?_ }, hreceives⟩
  rw [← List.append_assoc]
  have hkind : (kind x.orig).chained = false := by
    rw [hx]
    rfl
  exact hreads.carries.control hkind

theorem Path.lose (h : Path tx queue sent back e chain) (hq : queue'.Sublist queue) :
    Path tx queue' sent back e chain := by
  obtain ⟨g, held, hg, hreads, hreceives⟩ := h
  exact .follow hg hreceives (hreads.lose ((List.Sublist.refl held).append hq))

theorem Path.loseBack (h : Path tx queue sent back e chain) (hb : back'.Sublist back) :
    Path tx queue sent back' e chain := by
  obtain ⟨g, held, hg, hreads, hreceives⟩ := h
  exact .follow hg hreceives (hreads.loseBack hb)

theorem Path.alter {pre post : List (Flit (Raw F))} {y : Flit (Raw F)}
    (h : Path tx (pre ++ x :: post) sent back e chain) (ho : y.orig = x.orig)
    (hn : y.seqno = x.seqno) : Path tx (pre ++ y :: post) sent back e chain := by
  obtain ⟨g, held, hg, hreads, hreceives⟩ := h
  refine ⟨g, held, hg, { hreads with carries := ?_ }, hreceives⟩
  rw [← List.append_assoc]
  exact hreads.carries.alter (x := x) (by rw [List.append_assoc]) ho hn

theorem Path.alterBack {pre post : List (Flit (Raw F))} {y : Flit (Raw F)}
    (h : Path tx queue sent (pre ++ x :: post) e chain) (ho : y.orig = x.orig) :
    Path tx queue sent (pre ++ y :: post) e chain := by
  obtain ⟨g, held, hg, hreads, hreceives⟩ := h
  exact ⟨g, held, hg, { hreads with returns := hreads.returns.alter rfl ho }, hreceives⟩

/-- The other endpoint sends a flit that is no acknowledgement. -/
theorem Path.backOther (h : Path tx queue sent back e chain)
    (hx : kind x.orig ≠ .control ∨ tagOf x.orig ≠ F.ack) :
    Path tx queue sent (back ++ [x]) e chain := by
  obtain ⟨g, held, hg, hreads, hreceives⟩ := h
  refine ⟨g, held, hg, { hreads with returns := hreads.returns.other (if_neg ?_) }, hreceives⟩
  rintro ⟨hkind, htag⟩
  exact hx.elim (fun hne => hne hkind) fun hne => hne htag

/-- An acknowledgement reaches the sender. -/
theorem Path.arrive (h : Path tx queue sent (x :: back) e chain) (hraw : x.raw = x.orig)
    (hkind : kind x.raw = .control) (htag : tagOf x.raw = F.ack) :
    Path { tx with ackRX := tx.ackRX ++ [sequenceOf x.raw] } queue sent back e chain := by
  obtain ⟨g, held, hg, hreads, hreceives⟩ := h
  refine ⟨g, held, hg, ⟨{ hreads.sends with books := { hreads.sends.books with } }, hreads.carries,
    hreads.returns.arrive ?_⟩, hreceives⟩
  show (if _ then _ else _) = _
  rw [if_pos (by rw [← hraw]; exact ⟨hkind, htag⟩), hraw]

/-! ### The receiving side -/

/-- The receive registers, the words and the acknowledgements to send are the same. -/
structure SameReceive (e e' : Core F) : Prop where
  ackSequenceNumberTX : e'.ackSequenceNumberTX = e.ackSequenceNumberTX
  frameErrorRX : e'.frameErrorRX = e.frameErrorRX
  framePositionRX : e'.framePositionRX = e.framePositionRX
  provisionalFramePositionRX : e'.provisionalFramePositionRX = e.provisionalFramePositionRX
  provisionalSequenceNumberRX : e'.provisionalSequenceNumberRX = e.provisionalSequenceNumberRX
  sequenceNumberRX : e'.sequenceNumberRX = e.sequenceNumberRX
  fragmentNumberRX : e'.fragmentNumberRX = e.fragmentNumberRX
  demarshaller : e'.demarshaller = e.demarshaller
  enqueued : e'.enqueued = e.enqueued

theorem Receives.congr (h : Receives e chain g held) (hs : SameReceive e e') :
    Receives e' chain g held := by
  have hout : e'.output = e.output := by rw [Core.output, Core.output, hs.enqueued, hs.demarshaller]
  have hholds : Holds e g → Holds e' g := fun hh =>
    { sequence := hs.sequenceNumberRX ▸ hh.sequence, aligned := hh.aligned
      words := hout ▸ hh.words }
  rcases h with ⟨herr, hheld, hclosed⟩ | ⟨herr, hh, j, hopen⟩
  · exact Or.inl ⟨hs.frameErrorRX ▸ herr, hheld, { hholds hclosed.toHolds with
      position := hs.framePositionRX ▸ hclosed.position
      settled := hs.demarshaller ▸ hclosed.settled }⟩
  · refine Or.inr ⟨hs.frameErrorRX ▸ herr, hholds hh, j, { hopen with
      fragment := hs.fragmentNumberRX ▸ hopen.fragment
      provisional := hs.provisionalFramePositionRX ▸ hopen.provisional
      start := hs.provisionalSequenceNumberRX ▸ hopen.start
      new := ?_, old := ?_ }⟩
    · rw [hs.provisionalSequenceNumberRX, hs.sequenceNumberRX, hs.framePositionRX, hs.demarshaller]
      exact hopen.new
    · rw [hs.provisionalSequenceNumberRX, hs.sequenceNumberRX, hs.framePositionRX, hs.demarshaller]
      exact hopen.old

theorem Path.congr (h : Path tx queue sent back e chain) (hs : SameReceive e e') :
    Path tx queue sent back e' chain := by
  obtain ⟨g, held, hg, hreads, hreceives⟩ := h
  exact ⟨g, held, hg, hs.ackSequenceNumberTX ▸ hreads, hreceives.congr hs⟩

/-- The word in the demarshaller is dequeued. -/
theorem Path.rxDone (h : Path tx queue sent back e chain) (ht : e.rxDone = some e') :
    Path tx queue sent back e' chain := by
  obtain ⟨g, held, hg, hreads, hreceives⟩ := h
  obtain ⟨hfull, rfl⟩ := Core.rxDone_cases ht
  have hpos := F.interfaceWords_pos
  refine ⟨g, held, hg, hreads, ?_⟩
  have hholds : Holds e g → Holds (F := F) { e with
      demarshaller := []
      serdesRxfifo := e.serdesRxfifo ++ [unpad (Marshal.join F.interfaceWords e.demarshaller)]
      enqueued := e.enqueued ++ [unpad (Marshal.join F.interfaceWords e.demarshaller)] } g := by
    intro hh
    refine { hh with words := ?_ }
    rw [Core.output_of_short (by exact hpos), ← Core.output_of_full hfull]
    exact hh.words
  rcases hreceives with ⟨herr, hheld, hclosed⟩ | ⟨herr, hh, j, hopen⟩
  · exact Or.inl ⟨herr, hheld, { hholds hclosed.toHolds with
      position := hclosed.position, settled := Or.inl rfl }⟩
  · refine Or.inr ⟨herr, hholds hh, j, { hopen with new := fun hseq hj => ?_, old := fun hne => ?_ }⟩
    · obtain ⟨hposition, hword⟩ := hopen.new hseq hj
      refine ⟨hposition, Or.inl ⟨?_, Or.inl rfl⟩⟩
      rcases hword with ⟨hheld, _⟩ | ⟨_, hword⟩
      · exact hheld
      · rw [hword, List.length_map] at hfull
        have := hopen.short
        omega
    · exact ⟨(hopen.old hne).1, Or.inl rfl⟩

/-- An acknowledgement is sent. -/
theorem Path.sendAck (h : Path tx queue sent back e chain) {a : ℕ} {rest : List ℕ}
    (ha : e.ackSequenceNumberTX = a :: rest) (hx : x.orig = packControl F.ack a) :
    Path tx queue sent (back ++ [x]) { e with ackSequenceNumberTX := rest } chain := by
  obtain ⟨g, held, hg, hreads, hreceives⟩ := h
  have hlt : a < 8 := hreads.returns.lt_of_mem (by rw [ha]; simp)
  have hkind : kind (packControl F.ack a) = .control := kind_control F.ack_msb F.ack_ne_header a
  refine ⟨g, held, hg, { hreads with returns := hreads.returns.send ha ?_ }, ?_⟩
  · show (if _ then _ else _) = _
    rw [hx, if_pos ⟨hkind, tagOf_packControl _ _⟩, sequenceOf_packControl _ hlt]
  · rcases hreceives with ⟨herr, hheld, hclosed⟩ | ⟨herr, hh, j, hopen⟩
    · exact Or.inl ⟨herr, hheld, { hclosed with }⟩
    · exact Or.inr ⟨herr, { hh with }, j, { hopen with }⟩

/-- **A flit inside a group** is held: what the protocol has received stays the same. -/
theorem Path.hold (h : Path tx (x :: queue) sent back e chain) (herr : e.frameErrorRX = false)
    (hkind : kind x.raw = .payload) (hend : e.endsGroup = false) (ha : Core.Accepts e x e') :
    Path tx queue sent back e' (observe kind chain x) := by
  obtain ⟨g, held, hg, hreads, ⟨herr', _⟩ | ⟨_, hh, j, hopen⟩⟩ := h
  · rw [herr] at herr'
    cases herr'
  have hfresh := hopen.fresh_iff hh (inv_of_reachable hg)
  have hshort : held.length + 1 < F.interfaceWords := by
    have hne : ¬ held.length + 1 = F.interfaceWords := by
      rw [← hopen.endsGroup_iff, hend]
      simp
    have := hopen.short
    omega
  have hlast : F.frameCounter.isLast e.provisionalFramePositionRX = false := by
    rw [hopen.provisional]
    exact not_isLast_of_short hopen.aligned hopen.le_size hshort
  -- a new flit follows those of its group in the demarshaller
  have hword : e.fresh = true → e.demarshaller = held.map fun y => dataOf y.raw := by
    intro hf
    obtain ⟨hseq, hj⟩ := hfresh.mp hf
    rcases (hopen.new hseq hj).2 with ⟨hheld, hnil | hfull⟩ | ⟨_, hword⟩
    · rw [hnil, hheld, List.map_nil]
    · have := (ha.new hf).1
      omega
    · exact hword
  have hsame : e'.frameErrorRX = e.frameErrorRX ∧ e'.sequenceNumberRX = e.sequenceNumberRX := by
    cases hf : e.fresh with
    | false => exact ⟨(ha.old hf).2.1, (ha.old hf).2.2.1⟩
    | true => exact ⟨(ha.inside hf hlast).1, (ha.inside hf hlast).2.1⟩
  have hout : e'.output = e.output := by
    cases hf : e.fresh with
    | false => rw [Core.output, Core.output, ha.enqueued, (ha.old hf).1]
    | true =>
      have hlen : e'.demarshaller.length = held.length + 1 := by
        rw [(ha.new hf).2, hword hf, List.length_append, List.length_map, List.length_singleton]
      rw [Core.output_of_short (by omega), Core.output_of_short (ha.new hf).1, ha.enqueued]
  refine ⟨g, held ++ [x], hg, ?_, Or.inr ⟨hsame.1.trans herr, ?_, j, ?_⟩⟩
  · rw [ha.ackSequenceNumberTX, hlast, List.append_assoc]
    exact hreads
  · exact { hh with sequence := hsame.2.trans hh.sequence, words := hout ▸ hh.words }
  · have hpos := size_le_pow (F := F)
    refine ⟨?_, ?_, ?_, hopen.aligned, hopen.le_size, ?_, ?_, ?_, ?_⟩
    · intro y hy
      rcases List.mem_append.mp hy with hy | hy
      · exact hopen.payload y hy
      · rwa [List.mem_singleton.mp hy]
    · rw [ha.fragmentNumberRX, hend, hopen.fragment, List.length_append]
      exact FrameCounter.succ_eq (C := F.fragmentCounter) hshort
    · rw [List.length_append]
      exact hshort
    · rw [ha.provisionalFramePositionRX, hopen.provisional, FrameCounter.succ, Nat.mod_add_mod,
        List.length_append, Nat.add_assoc, List.length_singleton]
    · refine hopen.start.imp ?_ ?_
      · rintro ⟨f, chain₀, hcur, hseq, hchain, hfold⟩
        refine ⟨f, chain₀, hcur, ha.provisionalSequenceNumberRX.trans hseq, hchain, ?_⟩
        rw [List.foldl_append, ← hfold, List.foldl_cons, List.foldl_nil]
      · rintro ⟨hj, hchain⟩
        refine ⟨hj, ?_⟩
        rw [hchain]
        exact foldl_observe_none (l := [x]) (by simpa using hkind)
    · intro hseq hj
      rw [ha.provisionalSequenceNumberRX, hsame.2] at hseq
      have hf := hfresh.mpr ⟨hseq, hj⟩
      obtain ⟨hposition, _⟩ := hopen.new hseq hj
      have hroom := add_interfaceWords_le hopen.aligned interfaceWords_dvd_size
        (hopen.lt_size hh (inv_of_reachable hg) hseq)
      refine ⟨?_, Or.inr ⟨by simp, ?_⟩⟩
      · rw [(ha.inside hf hlast).2.2, hposition, FrameCounter.succ_eq (by omega),
          List.length_append, Nat.add_assoc, List.length_singleton]
      · rw [(ha.new hf).2, hword hf, List.map_append, List.map_singleton]
    · intro hne
      rw [ha.provisionalSequenceNumberRX, hsame.2] at hne
      have hf : e.fresh = false := by
        rw [← Bool.not_eq_true, hfresh]
        exact hne
      rw [(ha.old hf).2.2.2, (ha.old hf).1]
      exact hopen.old hne

/-- What the receiver's registers are after a group of frame `f` was received from `j` on, apart
from the awaited frame. -/
theorem Open.next (h : Open e chain g j held) (ha : Core.Accepts e x e')
    (hend : held.length + 1 = F.interfaceWords) {f i : ℕ} {g' : State (Data F)}
    (hle : j + F.interfaceWords ≤ F.frameCounter.size)
    (hseq : e.provisionalSequenceNumberRX = wrap f)
    (hcur : g'.current = some (f, j + F.interfaceWords))
    (hchain : Chained (some i) g' f (j + F.interfaceWords))
    (hrest : e'.framePositionRX = g'.pos ∧ Settled e'.demarshaller) :
    Open e' (some i) g' (j + F.interfaceWords) [] where
  payload := by simp
  fragment := by rw [ha.fragmentNumberRX, if_pos (h.endsGroup_iff.mpr hend), List.length_nil]
  short := F.interfaceWords_pos
  aligned := Nat.dvd_add h.aligned (Nat.dvd_refl _)
  le_size := hle
  provisional := by
    rw [ha.provisionalFramePositionRX, h.provisional, FrameCounter.succ, Nat.mod_add_mod,
      List.length_nil, ← hend, Nat.add_assoc]
    rfl
  start := Or.inl ⟨f, some i, hcur, ha.provisionalSequenceNumberRX.trans hseq, hchain, rfl⟩
  new _ _ := ⟨hrest.1, Or.inl ⟨rfl, hrest.2⟩⟩
  old _ := hrest

/-- A new word goes to the user, behind those of the protocol's items. -/
theorem Holds.append (h : Holds e g) {g' : State (Data F)} {l ds : List (Data F)}
    (hlen : ds.length = F.interfaceWords) (hlen' : l.length = F.interfaceWords)
    (hroom : e.demarshaller.length < F.interfaceWords) (hdem : e'.demarshaller = l)
    (henq : e'.enqueued = e.enqueued) (hdel : g'.delivered = g.delivered ++ ds)
    (hword : unpad (Marshal.join F.interfaceWords l) = unpad (Marshal.join F.interfaceWords ds))
    (hseq : e'.sequenceNumberRX = wrap g'.done) (halign : F.interfaceWords ∣ g'.pos) :
    Holds e' g' where
  sequence := hseq
  aligned := halign
  words := by
    obtain ⟨groups, hflat, hgroups, hout⟩ := h.words
    refine ⟨groups ++ [ds], by rw [hdel, hflat]; simp, ?_, ?_⟩
    · intro y hy
      rcases List.mem_append.mp hy with hy | hy
      · exact hgroups y hy
      · rw [List.mem_singleton.mp hy, hlen]
    · rw [Core.output_of_full (by rw [hdem, hlen']), henq, ← Core.output_of_short hroom, hout, hdem,
        hword, List.map_append, List.map_singleton]

/-- **The last flit of a group** whose checksum is right: what was held is received. -/
theorem Path.complete (h : Path tx (x :: queue) sent back e chain) (herr : e.frameErrorRX = false)
    (hkind : kind x.raw = .payload) (hend : e.endsGroup = true) (hgen : LossyLink.Genuine kind chain x)
    (ha : Core.Accepts e x e') : Path tx queue sent back e' (observe kind chain x) := by
  obtain ⟨g, held, hg, hreads, ⟨herr', _⟩ | ⟨_, hh, j, hopen⟩⟩ := h
  · rw [herr] at herr'
    cases herr'
  have hinv := inv_of_reachable hg
  have hfresh := hopen.fresh_iff hh hinv
  have hlen : held.length + 1 = F.interfaceWords := hopen.endsGroup_iff.mp hend
  have hnext : chain = some x.seqno := hgen.2 hkind
  have hobserve : observe kind chain x = some (x.seqno + 1) := by
    simp [observe, hkind, ← hgen.1, hnext]
  rcases hopen.start with ⟨f, chain₀, hcur, hseq, hchain, hfold⟩ | ⟨_, hnone⟩
  swap
  · rw [hnone] at hnext
    cases hnext
  -- the protocol receives the whole group
  rw [List.append_cons] at hreads
  have hpayload : ∀ y ∈ held ++ [x], kind y.raw = .payload := by
    intro y hy
    rcases List.mem_append.mp hy with hy | hy
    · exact hopen.payload y hy
    · rwa [List.mem_singleton.mp hy]
  have hlen' : (held ++ [x]).length = F.interfaceWords := by
    rw [List.length_append, List.length_singleton, hlen]
  obtain ⟨ds, g', hg', henc, hle, htook, hchain', hreads'⟩ := acceptAll (by simp) hpayload hg hreads
    hcur hchain (i := x.seqno + 1) (by
      rw [List.foldl_append, ← hfold, List.foldl_cons, List.foldl_nil, hobserve])
  have hdslen : ds.length = F.interfaceWords := henc.length_eq.trans hlen'
  rw [hlen'] at hle hchain' hreads'
  have hpow := size_le_pow (F := F)
  have hprov : e.provisionalFramePositionRX = j + held.length := by
    rw [hopen.provisional, Nat.mod_eq_of_lt (by omega)]
  have hlast : F.frameCounter.isLast e.provisionalFramePositionRX = true ↔
      j + F.interfaceWords = F.frameCounter.size := by
    rw [hprov, FrameCounter.isLast_iff (by omega), ← hlen, Nat.add_assoc]
  refine ⟨g', [], hg', ?_, ?_⟩
  · simp only [ha.ackSequenceNumberTX, hlast, hseq]
    exact hreads'
  rw [hobserve]
  have hcur' := htook.current
  rw [hdslen] at hcur'
  cases hf : e.fresh with
  | true =>
    -- the group is new
    obtain ⟨hseq', rfl⟩ := hfresh.mp hf
    have hdone : f = g.done := (hh.sequence_eq_iff hinv hcur hseq).mp hseq'
    obtain ⟨hdel, hmoved⟩ := htook.new hdone rfl
    obtain ⟨hroom, hdem⟩ := ha.new hf
    have hword : e'.demarshaller = (held ++ [x]).map fun y => dataOf y.raw := by
      rw [hdem, List.map_append, List.map_singleton]
      congr 1
      rcases (hopen.new hseq' rfl).2 with ⟨hheld, hnil | hfull⟩ | ⟨_, hword⟩
      · rw [hnil, hheld, List.map_nil]
      · omega
      · exact hword
    have hsettled : Settled e'.demarshaller := by
      right
      rw [hword, List.length_map, hlen']
    rw [hdslen] at hmoved
    by_cases hfull : g.pos + F.interfaceWords = F.frameCounter.size
    · rw [if_pos hfull] at hmoved
      obtain ⟨herr', hnumber, hposition⟩ := ha.last hf (hlast.mpr hfull)
      refine Or.inl ⟨herr', rfl, { hh.append hdslen (by rw [List.length_map, hlen']) hroom hword
        ha.enqueued hdel (henc.unpad_join hlen' hh.aligned) ?_ ?_ with
          position := hposition.trans hmoved.2.symm, settled := hsettled }⟩
      · rw [hnumber, hmoved.1, hh.sequence, wrap_succ]
      · rw [hmoved.2]
        exact Nat.dvd_zero _
    · rw [if_neg hfull] at hmoved
      have hnot : F.frameCounter.isLast e.provisionalFramePositionRX = false := by
        rw [← Bool.not_eq_true, hlast]
        exact hfull
      obtain ⟨herr', hnumber, hposition⟩ := ha.inside hf hnot
      have hposition' : e'.framePositionRX = g'.pos := by
        rw [hposition, ← Core.fresh_position hf, hprov, FrameCounter.succ_eq (by omega), hmoved.2,
          ← hlen, Nat.add_assoc]
      refine Or.inr ⟨herr'.trans herr, hh.append hdslen (by rw [List.length_map, hlen']) hroom hword
        ha.enqueued hdel (henc.unpad_join hlen' hh.aligned) ?_ ?_, _,
        hopen.next ha hlen hle hseq hcur' hchain' ⟨hposition', hsettled⟩⟩
      · rw [hnumber, hmoved.1, hh.sequence]
      · rw [hmoved.2]
        exact Nat.dvd_add hh.aligned (Nat.dvd_refl _)
  | false =>
    -- the group is a repeated one
    have hne : ¬ (e.provisionalSequenceNumberRX = e.sequenceNumberRX ∧ j = g.pos) := by
      rw [← hfresh, hf]
      simp
    have hstale : f ≠ g.done ∨ j + ds.length ≤ g.pos := by
      by_cases hdone : f = g.done
      · have hjle := hinv.current_le f j hcur
        have hjne : j ≠ g.pos := fun hj =>
          hne ⟨(hh.sequence_eq_iff hinv hcur hseq).mpr hdone, hj⟩
        right
        rw [hdslen]
        exact add_interfaceWords_le hopen.aligned hh.aligned (by omega)
      · exact Or.inl hdone
    obtain ⟨hdel, hdone, hpos⟩ := htook.old hstale
    obtain ⟨hdem, herr', hnumber, hposition⟩ := ha.old hf
    obtain ⟨hoposition, hosettled⟩ := hopen.old hne
    have hrest : e'.framePositionRX = g'.pos ∧ Settled e'.demarshaller := by
      rw [hposition, hdem, hpos]
      exact ⟨hoposition, hosettled⟩
    refine Or.inr ⟨herr'.trans herr, ?_, _, hopen.next ha hlen hle hseq hcur' hchain' hrest⟩
    refine ⟨by rw [hnumber, hdone, hh.sequence], by rw [hpos]; exact hh.aligned, ?_⟩
    rw [hdel, Core.output, ha.enqueued, hdem]
    exact hh.words

/-! ### Between groups -/

/-- What a receiver does when it gives up the group that is open. -/
structure RolledBack (e e' : Core F) : Prop where
  sequenceNumberRX : e'.sequenceNumberRX = e.sequenceNumberRX
  enqueued : e'.enqueued = e.enqueued
  ackSequenceNumberTX : e'.ackSequenceNumberTX = e.ackSequenceNumberTX
  /-- A group that the receiver waits for leaves neither a trace in the frame position nor one in
  the demarshaller. -/
  new : e.fresh = true →
    (e'.framePositionRX = e.rollBackPosition ∨
      e.fragmentNumberRX = 0 ∧ e'.framePositionRX = e.framePositionRX) ∧
    e'.demarshaller = if e.fragmentNumberRX = 0 then e.demarshaller else []
  /-- Any other group left none to begin with. -/
  old : e.fresh = false → e'.framePositionRX = e.framePositionRX ∧ e'.demarshaller = e.demarshaller

theorem rollBackPosition_eq (hpos : e.framePositionRX = g.pos + held.length)
    (hfrag : e.fragmentNumberRX = held.length) (hlt : g.pos < F.frameCounter.size) :
    e.rollBackPosition = g.pos := by
  have := size_le_pow (F := F)
  rw [Core.rollBackPosition, hpos, hfrag,
    show g.pos + held.length + 2 ^ F.frameCounter.width - held.length =
      g.pos + 2 ^ F.frameCounter.width by omega, Nat.add_mod_right, Nat.mod_eq_of_lt (by omega)]

/-- **A group is given up**: its flits are lost. -/
theorem Path.idle_of_rollBack (h : Path tx queue sent back e chain) (herr : e.frameErrorRX = false)
    (hr : RolledBack e e') : Idle tx queue sent back e' := by
  obtain ⟨g, held, hg, hreads, ⟨herr', _⟩ | ⟨_, hh, j, hopen⟩⟩ := h
  · rw [herr] at herr'
    cases herr'
  have hinv := inv_of_reachable hg
  have hfresh := hopen.fresh_iff hh hinv
  have hrest : e'.framePositionRX = g.pos ∧ Settled e'.demarshaller ∧ e'.output = e.output := by
    cases hf : e.fresh with
    | false =>
      have hne : ¬ (e.provisionalSequenceNumberRX = e.sequenceNumberRX ∧ j = g.pos) := by
        rw [← hfresh, hf]
        simp
      rw [(hr.old hf).1, (hr.old hf).2]
      refine ⟨(hopen.old hne).1, (hopen.old hne).2, ?_⟩
      rw [Core.output, Core.output, (hr.old hf).2, hr.enqueued]
    | true =>
      obtain ⟨hseq, hj⟩ := hfresh.mp hf
      obtain ⟨hposition, hword⟩ := hopen.new hseq hj
      obtain ⟨hback, hdem⟩ := hr.new hf
      have hback' : e'.framePositionRX = g.pos := by
        rcases hback with hback | ⟨hzero, hback⟩
        · exact hback.trans (rollBackPosition_eq hposition hopen.fragment hinv.pos_lt)
        · rw [hback, hposition, ← hopen.fragment, hzero, Nat.add_zero]
      refine ⟨hback', ?_⟩
      rw [hopen.fragment] at hdem
      rcases hword with ⟨rfl, hsettled⟩ | ⟨hheld, hword⟩
      · rw [List.length_nil, if_pos rfl] at hdem
        refine ⟨hdem ▸ hsettled, ?_⟩
        rw [Core.output, Core.output, hdem, hr.enqueued]
      · rw [if_neg (by simpa using hheld)] at hdem
        have hshort : e.demarshaller.length < F.interfaceWords := by
          rw [hword, List.length_map]
          exact hopen.short
        refine ⟨Or.inl hdem, ?_⟩
        rw [Core.output_of_short hshort, Core.output_of_short (by
          rw [hdem]
          exact F.interfaceWords_pos), hr.enqueued]
  obtain ⟨g', hfollow, hreads'⟩ := hreads.lose (List.sublist_append_right held queue)
  have hholds : Holds e' g :=
    { sequence := hr.sequenceNumberRX.trans hh.sequence
      aligned := hh.aligned
      words := hrest.2.2 ▸ hh.words }
  have hclosed : Closed e' g := { hholds with position := hrest.1, settled := hrest.2.1 }
  refine ⟨g', hg.steps hfollow.1, ?_, hclosed.mono hfollow.2⟩
  rw [hr.ackSequenceNumberTX]
  exact hreads'

/-- In error, the receiver is in no group. -/
theorem Path.idle_of_error (h : Path tx queue sent back e chain) (herr : e.frameErrorRX = true) :
    Idle tx queue sent back e := by
  obtain ⟨g, held, hg, hreads, ⟨_, rfl, hclosed⟩ | ⟨herr', _⟩⟩ := h
  · exact ⟨g, hg, hreads, hclosed⟩
  · rw [herr] at herr'
    cases herr'

/-- The receiver waits for a header. -/
theorem Idle.error (h : Idle tx queue sent back e) (herr : e.frameErrorRX = true)
    (chain : Option ℕ) : Path tx queue sent back e chain := by
  obtain ⟨g, hg, hreads, hclosed⟩ := h
  exact ⟨g, [], hg, hreads, Or.inl ⟨herr, rfl, hclosed⟩⟩

/-- What the receiver drops the link could have lost. -/
theorem Idle.drop (h : Idle tx (x :: queue) sent back e) : Idle tx queue sent back e := by
  obtain ⟨g, hg, hreads, hclosed⟩ := h
  obtain ⟨g', hfollow, hreads'⟩ := hreads.lose (List.sublist_cons_self x queue)
  exact ⟨g', hg.steps hfollow.1, hreads', hclosed.mono hfollow.2⟩

/-- The frame position, the awaited frame, the words and the acknowledgements to send are the
same. -/
structure SameClosed (e e' : Core F) : Prop where
  framePositionRX : e'.framePositionRX = e.framePositionRX
  sequenceNumberRX : e'.sequenceNumberRX = e.sequenceNumberRX
  demarshaller : e'.demarshaller = e.demarshaller
  enqueued : e'.enqueued = e.enqueued
  ackSequenceNumberTX : e'.ackSequenceNumberTX = e.ackSequenceNumberTX

theorem Closed.congr (h : Closed e g) (hs : SameClosed e e') : Closed e' g where
  sequence := hs.sequenceNumberRX.trans h.sequence
  aligned := h.aligned
  words := by
    rw [Core.output, hs.enqueued, hs.demarshaller]
    exact h.words
  position := hs.framePositionRX.trans h.position
  settled := hs.demarshaller ▸ h.settled

theorem Idle.congr (h : Idle tx queue sent back e) (hs : SameClosed e e') :
    Idle tx queue sent back e' := by
  obtain ⟨g, hg, hreads, hclosed⟩ := h
  exact ⟨g, hg, hs.ackSequenceNumberTX ▸ hreads, hclosed.congr hs⟩

/-- A receiver between groups is at the start of a frame. -/
theorem Closed.start (h : Closed e g) {chain : Option ℕ} (err : Bool)
    (hstart : (∃ f chain₀, g.current = some (f, 0) ∧ sequenceOf x.raw = wrap f ∧
      Chained chain₀ g f 0 ∧ chain = chain₀) ∨ chain = none) :
    Open (e.newFrame x err) chain g 0 [] where
  payload := by simp
  fragment := rfl
  short := F.interfaceWords_pos
  aligned := Nat.dvd_zero _
  le_size := Nat.zero_le _
  provisional := (Nat.zero_mod _).symm
  start := hstart.imp_right fun hnone => ⟨rfl, hnone⟩
  new _ _ := ⟨h.position, Or.inl ⟨rfl, h.settled⟩⟩
  old _ := ⟨h.position, h.settled⟩

/-- **A header** of a frame that does not lie beyond the one awaited starts that frame. -/
theorem Idle.header (h : Idle tx (x :: queue) sent back e) (hkind : kind x.raw = .header)
    (hraw : x.raw = x.orig) (hfuture : futureFrame e.sequenceNumberRX (sequenceOf x.raw) = false) :
    Path tx queue sent back (e.newFrame x false) (observe kind chain x) := by
  obtain ⟨g, hg, hreads, hclosed⟩ := h
  have hkind' : (reading F).kind x.orig = .header := hraw ▸ hkind
  obtain ⟨f, w, henc, hlo, hhi, haccept⟩ := hreads.header (inv_of_reachable hg) hkind'
  have hseq : sequenceOf x.raw = wrap f := by
    rw [hraw, show x.orig = _ from henc, sequenceOf_packControl _ (wrap_lt f)]
  have hle : f ≤ g.done := by
    rw [hclosed.sequence, hseq, futureFrame_wrap hlo hhi, decide_eq_false_iff_not] at hfuture
    omega
  obtain ⟨hstep, hreads', hchain⟩ := haccept hle
  have hobserve : observe kind chain x = some (x.seqno + 1) := by
    simp [observe, hkind, ← hraw]
  have hclosed' : Closed e { g with wire := w, current := some (f, 0) } :=
    { sequence := hclosed.sequence, aligned := hclosed.aligned, words := hclosed.words
      position := hclosed.position, settled := hclosed.settled }
  refine ⟨_, [], hg.step hstep, hreads', Or.inr ⟨rfl, { hclosed'.toHolds with }, 0, ?_⟩⟩
  rw [hobserve]
  exact hclosed'.start false (Or.inl ⟨f, _, rfl, hseq, hchain, rfl⟩)

/-- An altered header that the receiver takes for one starts a frame whose first group will
fail. -/
theorem Idle.headerUnknown (h : Idle tx (x :: queue) sent back e) (hkind : kind x.raw = .header)
    (hraw : x.raw ≠ x.orig) :
    Path tx queue sent back (e.newFrame x false) (observe kind chain x) := by
  obtain ⟨g, hg, hreads, hclosed⟩ := h.drop
  have hobserve : observe kind chain x = none := by
    simp [observe, hkind, hraw]
  refine ⟨g, [], hg, hreads, Or.inr ⟨rfl, { hclosed.toHolds with }, 0, ?_⟩⟩
  rw [hobserve]
  exact hclosed.start false (Or.inr rfl)

/-! ### What the receiver has -/

/-- What the registers alone say about the demarshaller: it holds the flits of the group that is
open, if the receiver waits for it, and else nothing or a whole word. -/
structure Aligned (e : Core F) : Prop where
  /-- In error. -/
  error : e.frameErrorRX = true → Settled e.demarshaller
  /-- A group is not complete. -/
  short : e.frameErrorRX = false → e.fragmentNumberRX < F.interfaceWords
  /-- Before the first flit of a group. -/
  first : e.frameErrorRX = false → e.fragmentNumberRX = 0 → Settled e.demarshaller
  /-- Inside a new group. -/
  new : e.frameErrorRX = false → e.fragmentNumberRX ≠ 0 → e.fresh = true →
    e.demarshaller.length = e.fragmentNumberRX
  /-- Inside a repeated group. -/
  old : e.frameErrorRX = false → e.fresh = false → Settled e.demarshaller

theorem Path.aligned (h : Path tx queue sent back e chain) : Aligned e := by
  obtain ⟨g, held, hg, _, ⟨herr, _, hclosed⟩ | ⟨herr, hh, j, hopen⟩⟩ := h
  · constructor <;> simp [herr, hclosed.settled]
  have hfresh := hopen.fresh_iff hh (inv_of_reachable hg)
  have hold : e.fresh = false → Settled e.demarshaller := by
    intro hf
    have hne : ¬ (e.provisionalSequenceNumberRX = e.sequenceNumberRX ∧ j = g.pos) := by
      rw [← hfresh, hf]
      simp
    exact (hopen.old hne).2
  have hnew : e.fresh = true → held = [] ∧ Settled e.demarshaller ∨
      held ≠ [] ∧ e.demarshaller = held.map fun x => dataOf x.raw := by
    intro hf
    obtain ⟨hseq, hj⟩ := hfresh.mp hf
    exact (hopen.new hseq hj).2
  refine ⟨by simp [herr], fun _ => hopen.fragment ▸ hopen.short, fun _ hzero => ?_,
    fun _ hne hf => ?_, fun _ => hold⟩
  · cases hf : e.fresh with
    | false => exact hold hf
    | true =>
      rcases hnew hf with ⟨_, hsettled⟩ | ⟨hheld, _⟩
      · exact hsettled
      · rw [hopen.fragment] at hzero
        exact absurd (List.length_eq_zero_iff.mp hzero) hheld
  · rcases hnew hf with ⟨hheld, _⟩ | ⟨_, hword⟩
    · rw [hopen.fragment, hheld] at hne
      exact absurd rfl hne
    · rw [hword, List.length_map, hopen.fragment]

/-- **The words in the receiver's hands**, and those it put into `serdesRxfifo` before, are made of
the first data flits that the sender was given, whole groups of them. -/
theorem Path.output_groups (h : Path tx queue sent back e chain) :
    ∃ groups : List (List (Data F)), groups.flatten <+: tx.txDataRewindBuffer.stream ∧
      (∀ l ∈ groups, l.length = F.interfaceWords) ∧
      e.output = groups.map fun l => unpad (Marshal.join F.interfaceWords l) := by
  obtain ⟨g, held, hg, hreads, hreceives⟩ := h
  have hholds : Holds e g := by
    rcases hreceives with ⟨_, _, hclosed⟩ | ⟨_, hh, _⟩
    · exact hclosed.toHolds
    · exact hh
  obtain ⟨groups, hflat, hlen, hout⟩ := hholds.words
  refine ⟨groups, ?_, hlen, hout⟩
  rw [← hflat, ← hreads.sends.source]
  exact (inv_of_reachable hg).delivered_isPrefix

end Grouped

end Aurora

end LeapPlatforms
