import LeapPlatforms.Aurora.Handshake

/-!
# What the handshake driver delivers

While the receive rule does not lose track of a group (`careful`), the driver is one with grouped
checksums, so its words are the beginning of those its peer was given; and every word is made of one
group whose checksum was verified. Where it does lose track, a fragment of a group that failed stays
in the demarshaller, and the next frame completes it to a word.

## Main definitions

* `driver` — the module, where it is careful
* `Tracks` — the history of the group that is open says what the demarshaller holds
* `Delivers` — verified words, in order

## Main results

* `verified_words_in_order` — where it is careful
* `stale_fragment_delivered` — where it is not
-/

namespace LeapPlatforms

namespace Aurora

namespace Handshake

open LossyLink (Flit Kind Machine Side Duplex Move)
open Grouped (Core Format Raw Data Word SharedRule Effect Examines Driver Aligned Settled)

variable {P : Params} {c c' : Core P.format} {x : Flit (Raw P.format)} {e e' : Endpoint P}
  {out : Option (Raw P.format)}

/-! ### The receive rule, where it is careful -/

/-- A payload flit is held, completes its group, fails it, or is skipped. -/
theorem examines_rxPayload (hkind : Grouped.kind x.raw = .payload)
    (hcareful : (c.fresh && c.fragmentNumberRX != 0 && !c.frameErrorRX && !c.notCorrupt x) = false)
    (h : rxPayload x c = some c') : Examines c x c' := by
  rw [rxPayload] at h
  cases herr : c.frameErrorRX with
  | true =>
    rw [herr, Bool.not_true, Bool.and_false, if_neg (by simp)] at h
    split at h <;> obtain rfl := Option.some.inj h
    · exact .skip herr hkind rfl (by constructor <;> rfl) (by constructor <;> rfl)
    · exact .skip herr hkind herr (by constructor <;> rfl) (by constructor <;> rfl)
  | false =>
    cases hok : c.notCorrupt x with
    | true =>
      rw [herr, hok] at h
      obtain ⟨hsame, ha⟩ := Core.acceptFragment_spec h
      cases hend : c.endsGroup with
      | true =>
        exact .complete herr hkind hend (Grouped.passes_of_notCorrupt hkind hend herr hok) ha hsame
      | false => exact .hold herr hkind hend ha hsame
    | false =>
      rw [herr, hok] at h
      obtain rfl := Option.some.inj h
      rw [herr, hok, Bool.not_false, Bool.and_true, Bool.and_true] at hcareful
      refine .fail herr hkind rfl ⟨rfl, rfl, rfl, fun hf => ?_, fun _ => ⟨rfl, rfl⟩⟩
        (by constructor <;> rfl)
      have hzero : c.fragmentNumberRX = 0 := by simpa [hf] using hcareful
      exact ⟨Or.inr ⟨hzero, rfl⟩, by rw [if_pos hzero]; rfl⟩

theorem examines_rxHeader {done : Bool} (hkind : Grouped.kind x.raw = .header)
    (hcareful : (c.fresh && c.fragmentNumberRX != 0 && c.frameErrorRX) = false) :
    Examines c x (rxHeader done x c) := by
  have hsame : ∀ b : Bool, Core.SameTransmit c (if b then
      { c with demarshaller := [], framePositionRX := c.rollBackPosition } else c) := by
    intro b
    cases b <;> constructor <;> rfl
  refine .header hkind ?_ (hsame _) fun herr => (Bool.or_eq_false_iff.mp herr).1
  cases herr : c.frameErrorRX with
  | true =>
    rw [herr, Bool.and_true] at hcareful
    rw [hcareful]
    exact Or.inr ⟨rfl, by constructor <;> rfl⟩
  | false =>
    refine Or.inl ⟨rfl, ?_⟩
    cases hinside : c.fresh && c.fragmentNumberRX != 0 with
    | true =>
      obtain ⟨hf, hne⟩ := Bool.and_eq_true_iff.mp hinside
      refine ⟨rfl, rfl, rfl, fun _ => ⟨Or.inl rfl, ?_⟩, fun hold => ?_⟩
      · rw [if_neg (show ¬ c.fragmentNumberRX = 0 by simpa using hne)]
        rfl
      · rw [hf] at hold
        cases hold
    | false =>
      refine ⟨rfl, rfl, rfl, fun hf => ?_, fun _ => ⟨rfl, rfl⟩⟩
      have hzero : c.fragmentNumberRX = 0 := by simpa [hf] using hinside
      exact ⟨Or.inr ⟨hzero, rfl⟩, by rw [if_pos hzero]; rfl⟩

/-- The receive rule takes one flit, and does with it what its kind asks for. -/
theorem rxDemarsh_cases (h : rxDemarsh e = some e') :
    ∃ x rest, e.core.serdesInfifo = x :: rest ∧
      ((Grouped.kind x.raw = .payload ∧
        rxPayload x { e.core with serdesInfifo := rest } = some e'.core ∧
        e'.group = groupAfter x e.core e.group ∧
        e'.verified = verifiedAfter x e.core e.group e.verified) ∨
      (Grouped.kind x.raw = .header ∧
        e'.core = rxHeader e.handshakeRXDone x { e.core with serdesInfifo := rest } ∧
        e'.group = [] ∧ e'.verified = e.verified) ∨
      (Grouped.kind x.raw = .control ∧ e'.group = e.group ∧ e'.verified = e.verified ∧
        (Grouped.tagOf x.raw = P.format.ack ∧
          ({ e.core with serdesInfifo := rest } : Core P.format).rxAck x = some e'.core ∨
        e'.core = { e.core with serdesInfifo := rest }))) := by
  rw [rxDemarsh] at h
  split at h
  · cases h
  · next x rest hx =>
    refine ⟨x, rest, hx, ?_⟩
    dsimp only at h
    split at h
    · next hpay =>
      obtain ⟨c', hc, rfl⟩ := Option.map_eq_some_iff.mp h
      exact Or.inl ⟨by simp [Grouped.kind, hpay], hc, rfl, rfl⟩
    · next hpay =>
      split at h
      · next hhead =>
        obtain rfl := Option.some.inj h
        exact Or.inr (Or.inl ⟨by simp [Grouped.kind, hpay, hhead], rfl, rfl, rfl⟩)
      · next hhead =>
        refine Or.inr (Or.inr ⟨by simp [Grouped.kind, hpay, hhead], ?_⟩)
        split at h
        · next hack =>
          obtain ⟨c', hc, rfl⟩ := Option.map_eq_some_iff.mp h
          exact ⟨rfl, rfl, Or.inl ⟨hack, hc⟩⟩
        · split at h <;> obtain rfl := Option.some.inj h
          · exact ⟨rfl, rfl, Or.inr rfl⟩
          · exact ⟨rfl, rfl, Or.inr rfl⟩

theorem effect_rxDemarsh (h : rxDemarsh e = some e') (hcareful : careful .rxDemarsh e = true) :
    Effect e.core e'.core none e.core.serdesInfifo.head? := by
  obtain ⟨x, rest, hx, hcases⟩ := rxDemarsh_cases h
  rw [hx, List.head?_cons]
  refine .examine hx ?_
  rcases hcases with ⟨hkind, hpay, _⟩ | ⟨hkind, hhead, _⟩ | ⟨hkind, _, _, ⟨htag, hack⟩ | hother⟩
  · have htracked : (e.core.fresh && e.core.fragmentNumberRX != 0 && !e.core.frameErrorRX &&
        !e.core.notCorrupt x) = false := by
      simpa only [careful, hx, hkind, Bool.not_eq_true'] using hcareful
    exact examines_rxPayload hkind htracked hpay
  · have htracked : (e.core.fresh && e.core.fragmentNumberRX != 0 && e.core.frameErrorRX) =
        false := by
      simpa only [careful, hx, hkind, Bool.not_eq_true'] using hcareful
    rw [hhead]
    exact examines_rxHeader hkind htracked
  · exact Grouped.examines_rxAck hkind htag hack
  · rw [hother]
    exact .ignore hkind

theorem withCore_cases {r : Option (Core P.format × Option (Raw P.format))}
    (h : e.withCore r = some (e', out)) :
    r = some (e'.core, out) ∧ e'.group = e.group ∧ e'.verified = e.verified := by
  obtain ⟨⟨c, f⟩, hc, heq⟩ := Option.map_eq_some_iff.mp h
  obtain ⟨rfl, rfl⟩ := Prod.mk.inj heq
  exact ⟨hc, rfl, rfl⟩

theorem tickCC_cases (h : e.tickCC = some e') :
    e'.core = e.core ∧ e'.group = e.group ∧ e'.verified = e.verified := by
  rw [Endpoint.tickCC] at h
  split at h
  · obtain rfl := Option.some.inj h
    exact ⟨rfl, rfl, rfl⟩
  · cases h

theorem txHeartbeat_cases {f : Raw P.format} (h : e.txHeartbeat = some (e', f)) :
    e'.core = e.core ∧ e'.group = e.group ∧ e'.verified = e.verified ∧
      ∃ value, f = Grouped.packControl P.heartbeat value := by
  rw [Endpoint.txHeartbeat] at h
  split at h
  · obtain ⟨rfl, rfl⟩ := Prod.mk.inj (Option.some.inj h)
    exact ⟨rfl, rfl, rfl, _, rfl⟩
  · cases h

/-- Where it is careful, every rule does one of the things a driver may do. -/
theorem effect_rule (r : Rule P) (h : rule r e = some (e', out)) (hcareful : careful r e = true) :
    Effect e.core e'.core out ((machine P).examines r e) := by
  cases r with
  | shared r => exact Grouped.effect_shared r (withCore_cases h).1
  | beat =>
    obtain ⟨rfl, rfl⟩ := Prod.mk.inj (Option.some.inj h)
    exact .silent Grouped.silent_refl
  | tickCC =>
    obtain ⟨e₁, htick, heq⟩ := Option.map_eq_some_iff.mp h
    obtain ⟨rfl, rfl⟩ := Prod.mk.inj heq
    rw [(tickCC_cases htick).1]
    exact .silent Grouped.silent_refl
  | txHeader =>
    obtain ⟨f, rfl, ht⟩ := Grouped.send_cases (withCore_cases h).1
    rw [Endpoint.txHeader] at ht
    split at ht
    · exact .txHeader ht
    · cases ht
  | txACK =>
    obtain ⟨f, rfl, ht⟩ := Grouped.send_cases (withCore_cases h).1
    rw [Endpoint.txACK] at ht
    split at ht
    · exact .txACK ht
    · cases ht
  | txHeartbeat =>
    obtain ⟨⟨e₁, f⟩, hbeat, heq⟩ := Option.map_eq_some_iff.mp h
    obtain ⟨rfl, rfl⟩ := Prod.mk.inj heq
    obtain ⟨hcore, _, _, value, rfl⟩ := txHeartbeat_cases hbeat
    rw [hcore]
    have hmsb : P.heartbeat.extractLsb' P.format.tagExtra 1 = 1 := by
      show heartbeat.extractLsb' 2 1 = 1
      decide
    have hheader : P.heartbeat ≠ P.format.header := by
      show heartbeat ≠ header
      decide
    have hack : P.heartbeat ≠ P.format.ack := by
      show heartbeat ≠ ack
      decide
    refine .other (Grouped.kind_control hmsb hheader value) ?_
    rw [Grouped.tagOf_packControl]
    exact hack
  | rxDemarsh =>
    obtain ⟨e₁, ht, heq⟩ := Option.map_eq_some_iff.mp h
    obtain ⟨rfl, rfl⟩ := Prod.mk.inj heq
    exact effect_rxDemarsh ht hcareful

variable (P) in
/-- The module, where it is careful, is a driver with grouped checksums. -/
def driver : Driver P.format (Endpoint P) (Rule P) where
  machine := (machine P).restrict careful
  core := Endpoint.core
  kind_eq := rfl
  passes_eq _ := rfl
  reset := rfl
  intake x e e' h := by
    obtain ⟨c, hc, rfl⟩ := Option.map_eq_some_iff.mp h
    exact Core.rxIntake_cases hc
  effect r e e' out h := by
    rw [Machine.restrict] at h
    dsimp only at h
    split at h
    · next hcareful => exact effect_rule r h hcareful
    · cases h

/-! ### Verified groups -/

/-- The history of the group that is open says what the demarshaller holds, and every word comes
from a verified group. -/
structure Tracks (c : Core P.format) (group : List (Data P.format))
    (verified : List (List (Data P.format))) : Prop where
  /-- Words come from verified groups. -/
  words : ∀ w ∈ c.output, ∃ l ∈ verified, l.length = P.format.interfaceWords ∧
    w = Grouped.unpad (Marshal.join P.format.interfaceWords l)
  /-- Accepted flits are counted. -/
  length : c.frameErrorRX = false → group.length = c.fragmentNumberRX
  /-- Those of a new group are in the demarshaller. -/
  new : c.frameErrorRX = false → c.fragmentNumberRX ≠ 0 → c.fresh = true → c.demarshaller = group

variable {group : List (Data P.format)} {verified : List (List (Data P.format))}

theorem Tracks.congr (h : Tracks c group verified) (henq : c'.enqueued = c.enqueued)
    (hdem : c'.demarshaller = c.demarshaller) (herr : c'.frameErrorRX = c.frameErrorRX)
    (hfrag : c'.fragmentNumberRX = c.fragmentNumberRX) (hfresh : c'.fresh = c.fresh) :
    Tracks c' group verified where
  words := by
    rw [Core.output, henq, hdem]
    exact h.words
  length := by
    rw [herr, hfrag]
    exact h.length
  new := by
    rw [herr, hfrag, hfresh, hdem]
    exact h.new

theorem Tracks.of_sameReceive (h : Tracks c group verified) (hs : Grouped.SameReceive c c') :
    Tracks c' group verified := by
  refine h.congr hs.enqueued hs.demarshaller hs.frameErrorRX hs.fragmentNumberRX ?_
  rw [Core.fresh, Core.fresh, hs.provisionalFramePositionRX, hs.provisionalSequenceNumberRX,
    hs.framePositionRX, hs.sequenceNumberRX]

/-- The word in the demarshaller is dequeued. -/
theorem Tracks.rxDone (h : Tracks c group verified) (ha : Aligned c) (ht : c.rxDone = some c') :
    Tracks c' group verified := by
  obtain ⟨hfull, rfl⟩ := Core.rxDone_cases ht
  refine ⟨?_, h.length, fun herr hne hf => ?_⟩
  · rw [Core.output_of_short (by exact P.format.interfaceWords_pos), ← Core.output_of_full hfull]
    exact h.words
  · have := ha.new herr hne hf
    have := ha.short herr
    omega

/-- What an accepted flit of a group that the receiver waits for finds in the demarshaller. -/
theorem Tracks.demarshaller (h : Tracks c group verified) (ha : Aligned c)
    (herr : c.frameErrorRX = false) (hf : c.fresh = true)
    (hroom : c.demarshaller.length < P.format.interfaceWords) : c.demarshaller = group := by
  by_cases hzero : c.fragmentNumberRX = 0
  · have hgroup : group = [] := List.length_eq_zero_iff.mp ((h.length herr).trans hzero)
    rcases ha.first herr hzero with hnil | hfull
    · rw [hnil, hgroup]
    · omega
  · exact h.new herr hzero hf

theorem succ_fragment (ha : Aligned c) (herr : c.frameErrorRX = false) :
    c.endsGroup = true ↔ c.fragmentNumberRX + 1 = P.format.interfaceWords :=
  FrameCounter.isLast_iff (C := P.format.fragmentCounter) (ha.short herr)

/-- A flit inside a group is accepted. -/
theorem Tracks.hold (h : Tracks c group verified) (ha : Aligned c) (ha' : Aligned c')
    (herr : c.frameErrorRX = false) (hend : c.endsGroup = false) (hacc : Core.Accepts c x c') :
    Tracks c' (group ++ [Grouped.dataOf x.raw]) verified := by
  have hlt : c.fragmentNumberRX + 1 < P.format.interfaceWords := by
    have hne : ¬ c.fragmentNumberRX + 1 = P.format.interfaceWords := by
      rw [← succ_fragment ha herr, hend]
      simp
    have := ha.short herr
    omega
  have hfrag : c'.fragmentNumberRX = c.fragmentNumberRX + 1 := by
    rw [hacc.fragmentNumberRX, hend]
    exact FrameCounter.succ_eq (C := P.format.fragmentCounter) hlt
  have hdem : c.fresh = true → c'.demarshaller = group ++ [Grouped.dataOf x.raw] := by
    intro hf
    rw [(hacc.new hf).2, h.demarshaller ha herr hf (hacc.new hf).1]
  refine ⟨?_, fun _ => ?_, fun herr' _ hf' => ?_⟩
  · cases hf : c.fresh with
    | true =>
      have hlen : c'.demarshaller.length = c.fragmentNumberRX + 1 := by
        rw [hdem hf, List.length_append, h.length herr, List.length_singleton]
      rw [Core.output_of_short (by omega), hacc.enqueued, ← Core.output_of_short (hacc.new hf).1]
      exact h.words
    | false =>
      rw [Core.output, hacc.enqueued, (hacc.old hf).1]
      exact h.words
  · rw [List.length_append, h.length herr, hfrag, List.length_singleton]
  · cases hf : c.fresh with
    | true => exact hdem hf
    | false =>
      -- a repeated group does not become a new one on its way
      have hlen := ha'.new herr' (by omega) hf'
      rw [(hacc.old hf).1, hfrag] at hlen
      rcases ha.old herr hf with hnil | hfull
      · rw [hnil, List.length_nil] at hlen
        omega
      · omega

/-- The last flit of a group is accepted. -/
theorem Tracks.complete (h : Tracks c group verified) (ha : Aligned c)
    (herr : c.frameErrorRX = false) (hend : c.endsGroup = true) (hacc : Core.Accepts c x c') :
    Tracks c' [] (verified ++ [group ++ [Grouped.dataOf x.raw]]) := by
  have hfrag : c'.fragmentNumberRX = 0 := by
    rw [hacc.fragmentNumberRX, hend]
    rfl
  have hmono : ∀ w ∈ c.output, ∃ l ∈ verified ++ [group ++ [Grouped.dataOf x.raw]],
      l.length = P.format.interfaceWords ∧
        w = Grouped.unpad (Marshal.join P.format.interfaceWords l) := by
    intro w hw
    obtain ⟨l, hl, heq⟩ := h.words w hw
    exact ⟨l, List.mem_append_left _ hl, heq⟩
  refine ⟨?_, fun _ => hfrag.symm, fun _ hne _ => absurd hfrag hne⟩
  cases hf : c.fresh with
  | true =>
    have hdem : c'.demarshaller = group ++ [Grouped.dataOf x.raw] := by
      rw [(hacc.new hf).2, h.demarshaller ha herr hf (hacc.new hf).1]
    have hlen : c'.demarshaller.length = P.format.interfaceWords := by
      rw [hdem, List.length_append, h.length herr, List.length_singleton]
      exact (succ_fragment ha herr).mp hend
    rw [Core.output_of_full hlen, hacc.enqueued, ← Core.output_of_short (hacc.new hf).1, hdem]
    intro w hw
    rcases List.mem_append.mp hw with hw | hw
    · exact hmono w hw
    · exact ⟨_, by simp, hdem ▸ hlen, List.mem_singleton.mp hw⟩
  | false =>
    rw [Core.output, hacc.enqueued, (hacc.old hf).1]
    exact hmono

/-- In error, no group is open. -/
theorem Tracks.error (h : Tracks c group verified) (henq : c'.enqueued = c.enqueued)
    (hdem : c'.demarshaller = c.demarshaller) (herr : c'.frameErrorRX = true) :
    Tracks c' [] verified := by
  refine ⟨?_, fun hno => ?_, fun hno => ?_⟩
  · rw [Core.output, henq, hdem]
    exact h.words
  · rw [herr] at hno
    cases hno
  · rw [herr] at hno
    cases hno

theorem Tracks.rxPayload (h : Tracks c group verified) (ha : Aligned c) (ha' : Aligned c')
    (ht : Handshake.rxPayload x c = some c') :
    Tracks c' (groupAfter x c group) (verifiedAfter x c group verified) := by
  rw [Handshake.rxPayload] at ht
  cases hacc : c.notCorrupt x && !c.frameErrorRX with
  | true =>
    rw [hacc] at ht
    obtain ⟨_, ht⟩ := Core.acceptFragment_spec ht
    obtain ⟨hok, herr⟩ := Bool.and_eq_true_iff.mp hacc
    rw [Bool.not_eq_true'] at herr
    cases hend : c.endsGroup with
    | true =>
      have htracks := h.complete ha herr hend ht
      simpa [groupAfter, verifiedAfter, hok, herr, hend] using htracks
    | false =>
      have htracks := h.hold ha ha' herr hend ht
      simpa [groupAfter, verifiedAfter, hok, herr, hend] using htracks
  | false =>
    rw [hacc, if_neg (by simp)] at ht
    simp only [groupAfter, verifiedAfter, hacc, Bool.false_eq_true, false_and, if_false]
    split at ht <;> obtain rfl := Option.some.inj ht
    · exact h.error rfl rfl rfl
    · next hok =>
      have hok' : c.notCorrupt x = true := by simpa using hok
      rw [hok', Bool.true_and, Bool.not_eq_false'] at hacc
      exact h.error rfl rfl hacc

theorem Tracks.rxHeader (h : Tracks c group verified) (ha : Aligned c) {done : Bool}
    (hcareful : (c.fresh && c.fragmentNumberRX != 0 && c.frameErrorRX) = false) :
    Tracks (Handshake.rxHeader done x c) [] verified := by
  refine ⟨?_, fun _ => rfl, fun _ hne _ => absurd rfl hne⟩
  cases hinside : c.fresh && c.fragmentNumberRX != 0 with
  | false =>
    have hsame : (Handshake.rxHeader done x c).output = c.output := by
      rw [Handshake.rxHeader, hinside]
      rfl
    rw [hsame]
    exact h.words
  | true =>
    rw [hinside, Bool.true_and] at hcareful
    obtain ⟨hf, hne⟩ := Bool.and_eq_true_iff.mp hinside
    -- the demarshaller holds no whole word
    have hshort : c.demarshaller.length < P.format.interfaceWords := by
      rw [ha.new hcareful (by simpa using hne) hf]
      exact ha.short hcareful
    have hnil : (Handshake.rxHeader done x c).demarshaller = [] := by
      rw [Handshake.rxHeader, hinside]
      rfl
    have henq : (Handshake.rxHeader done x c).enqueued = c.enqueued := by
      rw [Handshake.rxHeader, hinside]
      rfl
    rw [Core.output_of_short (by rw [hnil]; exact P.format.interfaceWords_pos), henq,
      ← Core.output_of_short hshort]
    exact h.words

/-- The history of an endpoint's groups is right. -/
def Tracked (e : Endpoint P) : Prop := Tracks e.core e.group e.verified

theorem Tracked.rxDemarsh (h : Tracked e) (ha : Aligned e.core) (ha' : Aligned e'.core)
    (ht : Handshake.rxDemarsh e = some e') (hcareful : careful .rxDemarsh e = true) :
    Tracked e' := by
  obtain ⟨x, rest, hx, hcases⟩ := rxDemarsh_cases ht
  have hrest : Tracks { e.core with serdesInfifo := rest } e.group e.verified :=
    h.congr rfl rfl rfl rfl rfl
  have harest : Aligned { e.core with serdesInfifo := rest } := { ha with }
  rw [Tracked]
  rcases hcases with ⟨hkind, hpay, hgroup, hverified⟩ | ⟨hkind, hhead, hgroup, hverified⟩ |
    ⟨hkind, hgroup, hverified, ⟨htag, hack⟩ | hother⟩
  · rw [hgroup, hverified]
    exact hrest.rxPayload harest ha' hpay
  · have htracked : (e.core.fresh && e.core.fragmentNumberRX != 0 && e.core.frameErrorRX) =
        false := by
      simpa only [careful, hx, hkind, Bool.not_eq_true'] using hcareful
    rw [hhead, hgroup, hverified]
    exact hrest.rxHeader harest htracked
  · rw [hgroup, hverified]
    rw [Core.rxAck] at hack
    split at hack
    · split at hack
      · rw [← Option.some.inj hack]
        exact h.congr rfl rfl rfl rfl rfl
      · cases hack
    · rw [← Option.some.inj hack]
      exact hrest
  · rw [hother, hgroup, hverified]
    exact hrest

/-- **Every rule**, where it is careful, keeps the history right. -/
theorem Tracked.rule (h : Tracked e) (ha : Aligned e.core) (ha' : Aligned e'.core) {r : Rule P}
    (hr : Handshake.rule r e = some (e', out)) (hcareful : careful r e = true) : Tracked e' := by
  have hsame : e'.core = e.core ∧ e'.group = e.group ∧ e'.verified = e.verified → Tracked e' := by
    rintro ⟨hcore, hgroup, hverified⟩
    rw [Tracked, hcore, hgroup, hverified]
    exact h
  cases r with
  | shared r =>
    obtain ⟨hcore, hgroup, hverified⟩ := withCore_cases hr
    rw [Tracked, hgroup, hverified]
    rcases Grouped.shared_cases r hcore with hs | hdone
    · exact h.of_sameReceive hs
    · exact h.rxDone ha hdone
  | beat =>
    obtain ⟨rfl, rfl⟩ := Prod.mk.inj (Option.some.inj hr)
    exact h
  | tickCC =>
    obtain ⟨e₁, htick, heq⟩ := Option.map_eq_some_iff.mp hr
    obtain ⟨rfl, rfl⟩ := Prod.mk.inj heq
    exact hsame (tickCC_cases htick)
  | txHeader =>
    obtain ⟨hcore, hgroup, hverified⟩ := withCore_cases hr
    obtain ⟨f, _, ht⟩ := Grouped.send_cases hcore
    rw [Endpoint.txHeader] at ht
    split at ht
    · obtain ⟨tx, seq, _, _, heq⟩ := Core.txHeader_cases ht
      rw [Tracked, hgroup, hverified, heq]
      exact h.congr rfl rfl rfl rfl rfl
    · cases ht
  | txACK =>
    obtain ⟨hcore, hgroup, hverified⟩ := withCore_cases hr
    obtain ⟨f, _, ht⟩ := Grouped.send_cases hcore
    rw [Endpoint.txACK] at ht
    split at ht
    · obtain ⟨a, rest, _, _, heq⟩ := Core.txACK_cases ht
      rw [Tracked, hgroup, hverified, heq]
      exact h.congr rfl rfl rfl rfl rfl
    · cases ht
  | txHeartbeat =>
    obtain ⟨⟨e₁, f⟩, hbeat, heq⟩ := Option.map_eq_some_iff.mp hr
    obtain ⟨rfl, rfl⟩ := Prod.mk.inj heq
    obtain ⟨hcore, hgroup, hverified, _⟩ := txHeartbeat_cases hbeat
    exact hsame ⟨hcore, hgroup, hverified⟩
  | rxDemarsh =>
    obtain ⟨e₁, ht, heq⟩ := Option.map_eq_some_iff.mp hr
    obtain ⟨rfl, rfl⟩ := Prod.mk.inj heq
    exact h.rxDemarsh ha ha' ht hcareful

/-! ### What the driver delivers -/

/-- Every word that `p` put into `serdesRxfifo` is made of one verified group, and they are the
beginning of those that the user of `s` gave. -/
def Delivers (s p : Side (Endpoint P) (Raw P.format)) : Prop :=
  (∀ w ∈ p.ep.core.enqueued, ∃ l ∈ p.ep.verified, l.length = P.format.interfaceWords ∧
    w = Grouped.unpad (Marshal.join P.format.interfaceWords l)) ∧
  p.ep.core.enqueued <+: s.ep.core.given

variable {s p s' p' : Side (Endpoint P) (Raw P.format)}

/-- **Every move** of a careful endpoint keeps both histories right. -/
theorem tracked_move (hs : Tracked s.ep) (hp : Tracked p.ep) (ha : Aligned s.ep.core)
    (ha' : Aligned s'.ep.core) (hmove : Move ((machine P).restrict careful) s p s' p') :
    Tracked s'.ep ∧ Tracked p'.ep := by
  cases hmove with
  | rule r ep out hr _ =>
    refine ⟨?_, hp⟩
    rw [Machine.restrict] at hr
    dsimp only at hr
    split at hr
    · next hcareful => exact hs.rule ha ha' hr hcareful
    · cases hr
  | intake x rest ep _ hin =>
    obtain ⟨c, hc, rfl⟩ := Option.map_eq_some_iff.mp hin
    obtain rfl := Core.rxIntake_cases hc
    exact ⟨Tracks.congr hs rfl rfl rfl rfl rfl, hp⟩
  | drop pre post x hlink => exact ⟨hs, hp⟩
  | corrupt pre post x raw softErr hlink => exact ⟨hs, hp⟩

theorem tracked_reset : Tracked (Endpoint.reset P) where
  words := by
    show ∀ w ∈ (Core.reset P.format).output, _
    rw [Core.output_of_short (e := Core.reset P.format) P.format.interfaceWords_pos]
    rintro w ⟨⟩
  length := by rintro ⟨⟩
  new := by rintro ⟨⟩

theorem tracked_of_reachable {d : Duplex (Endpoint P) (Raw P.format)}
    (h : (LossyLink.system ((machine P).restrict careful)).Reachable d) :
    Tracked d.a.ep ∧ Tracked d.b.ep := by
  have haligned : ∀ d, (LossyLink.system ((machine P).restrict careful)).Reachable d →
      Aligned d.a.ep.core ∧ Aligned d.b.ep.core := by
    intro d hd
    have hlinked := Driver.linked_of_reachable (D := driver P) hd
    exact ⟨hlinked.2.path.aligned, hlinked.1.path.aligned⟩
  refine h.invariant_of_reachable (P := fun d => Tracked d.a.ep ∧ Tracked d.b.ep) ?_ ?_
  · rintro _ rfl
    exact ⟨tracked_reset, tracked_reset⟩
  · rintro d d' hd ⟨hta, htb⟩ hstep
    have hd' := hd.step hstep
    rcases hstep with hmove | hmove
    · exact tracked_move hta htb (haligned d hd).1 (haligned d' hd').1 hmove
    · exact (tracked_move htb hta (haligned d hd).2 (haligned d' hd').2 hmove).symm

theorem delivers_of_linked (h : (driver P).Linked s p) (ht : Tracked p.ep) : Delivers s p := by
  refine ⟨fun w hw => ?_, h.enqueued_isPrefix⟩
  exact ht.words w (List.mem_append_left _ hw)

/-! ### A run -/

/-- The simulation driver's parameters, and words of two flits of 64 bits. -/
def sampleParams : Params where
  controlDataSize := 53
  controlDataSize_ge := Nat.le_add_right 11 42
  interfaceWords := 2
  interfaceWords_pos := Nat.two_pos
  interfaceFreq := 100
  timingParameter := 3

/-- Turns of the two endpoints. -/
abbrev Turns : Type := List (Bool × LossyLink.Turn (Rule sampleParams) (Raw sampleParams.format))

/-- The second endpoint takes a flit and examines it. -/
def receive : Turns := [(false, .intake), (false, .rule .rxDemarsh)]

/-- Both endpoints wait for clock compensation and exchange thirteen heartbeats. -/
def shakeHands : Turns :=
  List.replicate 7 (true, .rule .tickCC) ++ List.replicate 7 (false, .rule .tickCC) ++
  (List.replicate 13 ([(true, .rule .txHeartbeat)] ++ receive ++
    [(false, .rule .txHeartbeat), (true, .intake), (true, .rule .rxDemarsh)] ++
    List.replicate 8 (true, .rule .beat) ++ List.replicate 8 (false, .rule .beat))).flatten

/-- A word is given, a frame is started, and the word's two data flits are sent; what becomes of the
first of them on the link is a parameter. -/
def sendWord (onLink : Turns) : Turns :=
  [(true, .rule (.shared (.write 5))), (true, .rule (.shared .crossDomain)),
    (true, .rule (.shared .sequenceStuffer)), (true, .rule .txHeader)] ++ receive ++
  [(true, .rule (.shared .passRewind)), (true, .rule (.shared .txSend))] ++ onLink ++ receive ++
  [(true, .rule (.shared .passRewind)), (true, .rule (.shared .txSend))] ++ receive

/-- The frame is sent again. -/
def resend : Turns :=
  [(true, .rule (.shared .timeout)), (true, .rule .txHeader)] ++ receive ++
  [(true, .rule (.shared .txSend))] ++ receive ++ [(true, .rule (.shared .txSend))] ++ receive ++
  [(false, .rule (.shared .rxDone))]

/-- The first endpoint's clock, `n` ticks later. -/
def later (n : ℕ) (d : Duplex (Endpoint P) (Raw P.format)) : Duplex (Endpoint P) (Raw P.format) :=
  let tx := { d.a.ep.core.tx with timer := (d.a.ep.core.tx.timer + n) % 2 ^ 32 }
  { d with a := { d.a with ep := { d.a.ep with core := { d.a.ep.core with tx := tx } } } }

theorem later_reachable {d : Duplex (Endpoint P) (Raw P.format)}
    (h : (LossyLink.system (machine P)).Reachable d) (n : ℕ) :
    (LossyLink.system (machine P)).Reachable (later (n + 1) d) := by
  have htick : ∀ d : Duplex (Endpoint P) (Raw P.format),
      LossyLink.run (machine P) [(true, .rule (.shared .timerCount))] d = some (later 1 d) := by
    intro d
    simp [LossyLink.run, Side.turn, machine, rule, Endpoint.withCore, Grouped.SharedRule.rule,
      Core.quiet, Core.timerCount, Sender.timerCount, later, Side.fire]
  induction n with
  | zero => exact LossyLink.run_reachable h (htick d)
  | succ n ih =>
    have hnext : later 1 (later (n + 1) d) = later (n + 1 + 1) d := by
      simp [later, Nat.add_assoc]
    rw [← hnext]
    exact LossyLink.run_reachable ih (htick _)

/-- A data flit is altered, its group fails, and the frame is sent again after a timeout. -/
def staleRun : Option (Duplex (Endpoint sampleParams) (Raw sampleParams.format)) :=
  (LossyLink.run (machine sampleParams)
    (shakeHands ++ sendWord [(true, .corrupt 0 1 false)]) (Duplex.reset (machine sampleParams))).bind
    fun d => LossyLink.run (machine sampleParams) resend (later 100001 d)

theorem staleRun_words : (staleRun.map fun d => (d.a.ep.core.given, d.b.ep.core.enqueued,
    d.b.ep.verified.map fun l =>
      Grouped.unpad (F := sampleParams.format) (Marshal.join sampleParams.format.interfaceWords l))) =
      some ([5], [36028797018963973], [5]) := by
  decide +kernel

/-- **A stale fragment is delivered.** A data flit of the word 5 is altered on the link, and its
group fails its check. Its first fragment stays in the demarshaller, and when the frame is sent
again it becomes part of a word that nobody sent. -/
theorem stale_fragment_delivered :
    ∃ d : Duplex (Endpoint sampleParams) (Raw sampleParams.format),
      (LossyLink.system (machine sampleParams)).Reachable d ∧ d.a.ep.core.given = [5] ∧
        d.b.ep.core.enqueued = [36028797018963973] ∧
        ¬ d.b.ep.core.enqueued <+: d.a.ep.core.given ∧
        ¬ (∀ w ∈ d.b.ep.core.enqueued, ∃ l ∈ d.b.ep.verified,
          l.length = sampleParams.format.interfaceWords ∧
            w = Grouped.unpad (Marshal.join sampleParams.format.interfaceWords l)) := by
  obtain ⟨d, hrun, hwords⟩ := Option.map_eq_some_iff.mp staleRun_words
  obtain ⟨d₀, hfirst, hsecond⟩ := Option.bind_eq_some_iff.mp hrun
  obtain ⟨hgiven, henq, hverified⟩ : d.a.ep.core.given = [5] ∧
      d.b.ep.core.enqueued = [36028797018963973] ∧ (d.b.ep.verified.map fun l =>
        Grouped.unpad (F := sampleParams.format)
          (Marshal.join sampleParams.format.interfaceWords l)) = [5] := by
    simpa only [Prod.mk.injEq] using hwords
  have hreach := LossyLink.run_reachable
    (later_reachable (LossyLink.run_reachable (.init rfl) hfirst) 100000) hsecond
  have hne : (36028797018963973 : Word sampleParams.format) ≠ 5 := by decide +kernel
  refine ⟨d, hreach, hgiven, henq, ?_, fun hall => ?_⟩
  · rw [hgiven, henq, List.cons_prefix_cons]
    rintro ⟨heq, _⟩
    exact hne heq
  · obtain ⟨l, hl, _, hw⟩ := hall 36028797018963973 (by rw [henq]; simp)
    have hmem := List.mem_map_of_mem (f := fun l => Grouped.unpad (F := sampleParams.format)
      (Marshal.join sampleParams.format.interfaceWords l)) hl
    rw [hverified, List.mem_singleton] at hmem
    exact hne (hw.trans hmem)

/-- **Verified words in order.** In every run whose receive rules do not lose track of a group,
every word that an endpoint put into `serdesRxfifo` is made of one group whose checksum was
verified, and these words are the beginning of those that the other's user gave. -/
theorem verified_words_in_order (P : Params) (d : Duplex (Endpoint P) (Raw P.format))
    (h : (LossyLink.system ((machine P).restrict careful)).Reachable d) :
    Delivers d.a d.b ∧ Delivers d.b d.a := by
  have hlinked := Driver.linked_of_reachable (D := driver P) h
  have htracked := tracked_of_reachable h
  exact ⟨delivers_of_linked hlinked.1 htracked.2, delivers_of_linked hlinked.2 htracked.1⟩

theorem verified_words_in_order_sample :
    ∃ d : Duplex (Endpoint sampleParams) (Raw sampleParams.format),
      (LossyLink.system ((machine sampleParams).restrict careful)).Reachable d ∧
        d.b.ep.core.enqueued = [5] ∧ Delivers d.a d.b ∧ Delivers d.b d.a := by
  have hrun : (LossyLink.run ((machine sampleParams).restrict careful)
      (shakeHands ++ sendWord [] ++ [(false, .rule (.shared .rxDone))])
      (Duplex.reset ((machine sampleParams).restrict careful))).map
        (fun d => d.b.ep.core.enqueued) = some [5] := by
    decide +kernel
  obtain ⟨d, hd, henq⟩ := Option.map_eq_some_iff.mp hrun
  have hreach := LossyLink.run_reachable (.init rfl) hd
  exact ⟨d, hreach, henq, verified_words_in_order sampleParams d hreach⟩

end Handshake

end Aurora

end LeapPlatforms
