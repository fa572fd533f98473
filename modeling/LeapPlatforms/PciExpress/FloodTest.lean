import LeapPlatforms.Foundation.TransitionSystem
import LeapPlatforms.Foundation.Messages
import Mathlib.Data.BitVec
import Mathlib.Data.List.Induction
import Mathlib.Algebra.Order.Ring.Nat

/-!
# The test `mkFloodTest`

A port that answers a request for `N` beats with `N` beats, in BlueNoC messages. A request is a
header and four bytes that say how many beats are wanted. `pos` is the place in a message of the
next beat; the rule that sends a header always moves it on, also when no beat of the request is
left. So a request whose last message is a header alone leaves `pos` in a message that nobody has
begun.

The port takes a beat out of `beats_out` at any time, so the rule that sends never waits for it. A
beat sent carries a note of the branch that sent it, which no rule reads.

## Main definitions

* `FloodTest`, `Rule`, `rule` — the registers and the rules
* `Flooding`, `flooding` — the runs, with the beats that each request got
* `Framed`, `WellFramed` — what the host expects of them
* `EndsBare` — the last message of a request is a header alone

## Main results

* `Progress.send`, `progress_of_reachable` — where the module is in a message
* `exists_served` — every sequence of requests is answered
* `wellFramed_iff`
-/

namespace LeapPlatforms

namespace PciExpress

namespace Flood

open Messages (Complete Open)

/-- What an instance of the module is built with. -/
structure Params where
  /-- `n_BPB`. -/
  beatBytes : ℕ
  /-- At least four, and a power of two. -/
  beatBytes_eq : beatBytes = 4 ∨ beatBytes = 8 ∨ beatBytes = 16

namespace Params

variable (P : Params)

/-- The bits of a beat. -/
abbrev width : ℕ := 8 * P.beatBytes

/-- `max_beats_per_msg`. -/
def maxBeatsPerMsg : ℕ := 256 / P.beatBytes

end Params

/-- A beat. -/
abbrev Beat (P : Params) : Type := BitVec P.width

/-- A beat sent. -/
structure Out (P : Params) where
  /-- What is sent. -/
  beat : Beat P
  /-- A note that it was sent as a header. -/
  isHeader : Bool
  deriving DecidableEq

variable {P : Params}

/-! ### The module -/

variable (P) in
/-- The registers and the queue of the module. -/
structure FloodTest where
  /-- The beats that came. -/
  beatsIn : List (Beat P)
  /-- `beatInIdx`, of one bit. -/
  beatInIdx : ℕ
  /-- Where the flood comes from. -/
  sendFromNode : BitVec 8
  /-- Where it goes to. -/
  sendToNode : BitVec 8
  /-- `beatsToSend`, of 32 bits. -/
  beatsToSend : ℕ
  /-- `pos`, of eight bits. -/
  pos : ℕ

/-- What is seen of a rule. -/
inductive Event (P : Params)
  | quiet
  | request (size : BitVec 32)
  | sent (out : Out P)

namespace FloodTest

variable (P) in
/-- After a reset. -/
def reset : FloodTest P where
  beatsIn := []
  beatInIdx := 0
  sendFromNode := 0
  sendToNode := 0
  beatsToSend := 0
  pos := 0

/-- The routing information of a request is in its first beat. -/
def routed (s : FloodTest P) (beat : Beat P) : FloodTest P :=
  if s.beatInIdx = 0 then
    { s with sendFromNode := beat.extractLsb' 0 8, sendToNode := beat.extractLsb' 8 8 }
  else s

/-- `parseIncoming`. -/
def parseIncoming (s : FloodTest P) : Option (FloodTest P × Event P) :=
  match s.beatsIn with
  | [] => none
  | beat :: rest =>
    if s.beatsToSend = 0 then
      if 4 < P.beatBytes then
        -- Send length fits in the first beat
        some ({ s.routed beat with
          beatsIn := rest
          beatsToSend := (beat.extractLsb' 32 32).toNat }, .request (beat.extractLsb' 32 32))
      else if s.beatInIdx = 1 then
        -- 4 byte beats, 2nd beat has the length
        some ({ s.routed beat with
          beatsIn := rest
          beatsToSend := (beat.extractLsb' 0 32).toNat
          beatInIdx := 0 }, .request (beat.extractLsb' 0 32))
      else
        -- Move on to 2nd beat of 4 byte beats
        some ({ s.routed beat with beatsIn := rest, beatInIdx := 1 }, .quiet)
    else none

/-- The length in a header. -/
def len (s : FloodTest P) : BitVec 8 :=
  if P.maxBeatsPerMsg < s.beatsToSend then 252
  else BitVec.ofNat 8 ((s.beatsToSend * P.beatBytes + 2 ^ 32 - 4) % 2 ^ 32)

/-- The flag that tells the receiver not to wait for more. -/
def dw (s : FloodTest P) : Bool := !decide (P.maxBeatsPerMsg < s.beatsToSend)

/-- The header of a new message. -/
def header (s : FloodTest P) : Beat P :=
  ((0 : BitVec 7) ++ BitVec.ofBool s.dw ++ s.len ++ s.sendFromNode ++ s.sendToNode).setWidth P.width

/-- A beat that is not a header. -/
def payload (s : FloodTest P) : Beat P :=
  (BitVec.ofNat 32 (s.beatsToSend * 2) ++ BitVec.ofNat 32 s.beatsToSend).setWidth P.width

/-- `sendOutbound`. -/
def sendOutbound (s : FloodTest P) : Option (FloodTest P × Event P) :=
  if s.beatsToSend ≠ 0 then
    if s.pos = 0 then
      -- New message
      some ({ s with pos := (s.pos + 1) % 2 ^ 8, beatsToSend := s.beatsToSend - 1 },
        .sent { beat := s.header, isHeader := true })
    else
      some ({ s with
        pos := if s.pos = (P.maxBeatsPerMsg - 1) % 2 ^ 8 ∨ s.beatsToSend = 1 then 0
          else (s.pos + 1) % 2 ^ 8
        beatsToSend := s.beatsToSend - 1 }, .sent { beat := s.payload, isHeader := false })
  else none

end FloodTest

/-- The rules, and the port that brings beats. -/
inductive Rule (P : Params)
  | arrive (beat : Beat P)
  | parseIncoming
  | sendOutbound

/-- What a rule does, if it can fire. -/
def rule (r : Rule P) (s : FloodTest P) : Option (FloodTest P × Event P) :=
  match r with
  | .arrive beat => some ({ s with beatsIn := s.beatsIn ++ [beat] }, .quiet)
  | .parseIncoming => s.parseIncoming
  | .sendOutbound => s.sendOutbound

/-! ### Runs -/

/-- A request, with the beats that it got. -/
structure Request (P : Params) where
  /-- The beats wanted. -/
  size : BitVec 32
  /-- The beats sent. -/
  beats : List (Out P)
  deriving DecidableEq

variable (P) in
/-- The module, and the requests that it took, the last one first. -/
structure Flooding where
  /-- The module. -/
  test : FloodTest P
  /-- The requests. -/
  served : List (Request P)

/-- What an event adds to them. -/
def Event.record (served : List (Request P)) : Event P → List (Request P)
  | .quiet => served
  | .request size => { size := size, beats := [] } :: served
  | .sent out => served.modifyHead fun r => { r with beats := r.beats ++ [out] }

/-- What a rule makes of them. -/
def Flooding.fire (r : Rule P) (s : Flooding P) : Option (Flooding P) :=
  (rule r s.test).map fun (test, event) => { test := test, served := event.record s.served }

variable (P) in
/-- After a reset. -/
def Flooding.reset : Flooding P := { test := .reset P, served := [] }

variable (P) in
/-- The runs of the module, whatever comes. -/
def flooding : TransitionSystem (Flooding P) where
  init s := s = .reset P
  step s t := ∃ r, s.fire r = some t

/-- The sizes of the requests, in their order. -/
def Flooding.sizes (s : Flooding P) : List (BitVec 32) :=
  (s.served.map Request.size).reverse

/-! ### What the host expects -/

/-- The length of a message: the bytes after the fourth. -/
def lengthOf (beat : Beat P) : ℕ := (beat.extractLsb' 16 8).toNat

/-- The beats that follow a header: what is left of its length fills them. -/
def payloadBeats (out : Out P) : ℕ :=
  (lengthOf out.beat - (P.beatBytes - 4) + P.beatBytes - 1) / P.beatBytes

/-- Whole messages. -/
abbrev Whole (l : List (Out P)) : Prop :=
  Complete payloadBeats (fun h => h.isHeader = true) (fun _ x => x.isHeader = false) l

/-- Whole messages, and the first beats of one more. -/
abbrev Begun (l : List (Out P)) (h : Out P) (payload : List (Out P)) : Prop :=
  Open payloadBeats (fun h => h.isHeader = true) (fun _ x => x.isHeader = false) l h payload

/-- The beats of a request that waits for `left` more: messages, and at its end whole ones. -/
structure Framed (left : ℕ) (r : Request P) : Prop where
  /-- It gets as many as it wants. -/
  length_add : r.beats.length + left = r.size.toNat
  /-- They are messages. -/
  messages : Whole r.beats ∨ ∃ h payload, Begun r.beats h payload
  /-- At its end they are whole. -/
  whole : left = 0 → Whole r.beats

/-- Every request gets messages of its own; only the last may wait for more. -/
def WellFramed (s : Flooding P) : Prop :=
  (∀ r ∈ s.served.head?, Framed s.test.beatsToSend r) ∧ ∀ r ∈ s.served.tail, Framed 0 r

variable (P) in
/-- The last message of a request of this size is a header alone. -/
def EndsBare (size : BitVec 32) : Prop := size.toNat % P.maxBeatsPerMsg = 1

instance (size : BitVec 32) : Decidable (EndsBare P size) :=
  inferInstanceAs (Decidable (_ = _))

variable (P) in
/-- After a request whose last message is a header alone there are none but empty ones. -/
def Separated (sizes : List (BitVec 32)) : Prop :=
  sizes.Pairwise fun earlier later => EndsBare P earlier → later = 0

theorem maxBeatsPerMsg_mul : P.maxBeatsPerMsg * P.beatBytes = 256 := by
  rw [Params.maxBeatsPerMsg]
  rcases P.beatBytes_eq with h | h | h <;> rw [h]

theorem maxBeatsPerMsg_ge : 16 ≤ P.maxBeatsPerMsg := by
  rw [Params.maxBeatsPerMsg]
  rcases P.beatBytes_eq with h | h | h <;> rw [h] <;> decide

theorem maxBeatsPerMsg_le : P.maxBeatsPerMsg ≤ 64 := by
  rw [Params.maxBeatsPerMsg]
  rcases P.beatBytes_eq with h | h | h <;> rw [h] <;> decide

theorem beatBytes_ge : 4 ≤ P.beatBytes := by
  rcases P.beatBytes_eq with h | h | h <;> rw [h] <;> decide

/-! ### Headers -/

theorem lengthOf_header (s : FloodTest P) : lengthOf s.header = s.len.toNat := by
  have hwidth : 32 ≤ P.width := by
    have := beatBytes_ge (P := P)
    rw [Params.width]
    omega
  have hcut : ∀ w : BitVec 32, (w.setWidth P.width).extractLsb' 16 8 = w.extractLsb' 16 8 := by
    intro w
    refine BitVec.eq_of_getLsbD_eq fun i hi => ?_
    rw [BitVec.getLsbD_extractLsb', BitVec.getLsbD_extractLsb', BitVec.getLsbD_setWidth]
    simp [show 16 + i < P.width by omega]
  rw [lengthOf, FloodTest.header, hcut, BitVec.extractLsb'_append_eq_of_le (by decide),
    BitVec.extractLsb'_append_eq_of_le (by decide),
    BitVec.extractLsb'_append_eq_of_add_le (by decide)]
  simp

/-- The length of a header is that of the longest message, or of all the beats that are left. -/
theorem payloadBeats_header {s : FloodTest P} (hne : s.beatsToSend ≠ 0) (b : Bool) :
    payloadBeats { beat := s.header, isHeader := b } + 1 = min P.maxBeatsPerMsg s.beatsToSend := by
  have hmul := maxBeatsPerMsg_mul (P := P)
  have hge := beatBytes_ge (P := P)
  have hmsg := maxBeatsPerMsg_ge (P := P)
  -- `k` beats have this length, whatever a beat is
  have key : ∀ k, 0 < k → s.len.toNat = k * P.beatBytes - 4 →
      payloadBeats { beat := s.header, isHeader := b } + 1 = k := by
    intro k hk hlen
    obtain ⟨j, rfl⟩ : ∃ j, k = j + 1 := ⟨k - 1, by omega⟩
    rw [payloadBeats, lengthOf_header, hlen, Nat.succ_mul,
      show j * P.beatBytes + P.beatBytes - 4 - (P.beatBytes - 4) + P.beatBytes - 1 =
        P.beatBytes * j + (P.beatBytes - 1) by rw [Nat.mul_comm]; omega,
      Nat.mul_add_div (by omega), Nat.div_eq_of_lt (by omega), Nat.add_zero]
  by_cases hlong : P.maxBeatsPerMsg < s.beatsToSend
  · rw [Nat.min_eq_left hlong.le]
    refine key _ (by omega) ?_
    rw [FloodTest.len, if_pos hlong, hmul]
    rfl
  · rw [Nat.min_eq_right (by omega)]
    refine key _ (by omega) ?_
    have hle : s.beatsToSend * P.beatBytes ≤ 256 := by
      rw [← hmul]
      exact Nat.mul_le_mul_right _ (by omega)
    have hpos : P.beatBytes ≤ s.beatsToSend * P.beatBytes :=
      Nat.le_mul_of_pos_left _ (by omega)
    rw [FloodTest.len, if_neg hlong, BitVec.toNat_ofNat]
    omega

/-! ### Where the module is in a message -/

variable (P) in
/-- What is left in `pos` by the requests that are done. -/
def Carries (pos : ℕ) (done : List (Request P)) : Prop :=
  (pos = 1 ∧ ∃ r ∈ done, EndsBare P r.size) ∨ (pos = 0 ∧ ∀ r ∈ done, ¬ EndsBare P r.size)

variable (P) in
/-- The requests that are done got what they wanted. -/
def Done (done : List (Request P)) : Prop := ∀ r ∈ done, Framed 0 r

/-- Where the module is, with `left` beats to send. -/
inductive Progress (left pos : ℕ) (served : List (Request P)) : Prop
  /-- Every request is done. -/
  | idle (hleft : left = 0) (hdone : Done P served)
      (hsep : Separated P (served.map Request.size).reverse) (hpos : Carries P pos served)
  /-- A request is taken, and `pos` is in the message of another. -/
  | carried (r : Request P) (done : List (Request P)) (hserved : served = r :: done)
      (hbeats : r.beats = []) (hsize : left = r.size.toNat) (hne : left ≠ 0)
      (hdone : Done P done) (hbare : ∃ r' ∈ done, EndsBare P r'.size) (hpos : pos = 1)
  /-- The next beat begins a message. -/
  | between (r : Request P) (done : List (Request P)) (hserved : served = r :: done)
      (hlen : r.beats.length + left = r.size.toNat) (hne : left ≠ 0) (hdone : Done P done)
      (hclean : ∀ r' ∈ done, ¬ EndsBare P r'.size) (hpos : pos = 0)
      (hmod : r.beats.length % P.maxBeatsPerMsg = 0) (hwhole : Whole r.beats)
  /-- The next beat continues one. -/
  | inside (r : Request P) (done : List (Request P)) (hserved : served = r :: done)
      (hlen : r.beats.length + left = r.size.toNat) (hne : left ≠ 0) (hdone : Done P done)
      (hclean : ∀ r' ∈ done, ¬ EndsBare P r'.size) (h : Out P) (payload : List (Out P))
      (hpos : payload.length + 1 = pos) (hmod : r.beats.length % P.maxBeatsPerMsg = pos)
      (htotal : payloadBeats h + 1 = min P.maxBeatsPerMsg (left + pos))
      (hbegun : Begun r.beats h payload)
  /-- A request got its first beat in the message of another. -/
  | lost (r : Request P) (hmem : r ∈ served) (x : Out P) (l : List (Out P))
      (hbeats : r.beats = x :: l) (hx : x.isHeader = false)
      (hsep : ¬ Separated P (served.map Request.size).reverse)

theorem separated_reverse_cons {size : BitVec 32} {sizes : List (BitVec 32)} :
    Separated P (size :: sizes).reverse ↔
      (∀ n ∈ sizes, EndsBare P n → size = 0) ∧ Separated P sizes.reverse := by
  rw [Separated, Separated, List.pairwise_reverse, List.pairwise_reverse, List.pairwise_cons]

theorem separated_of_clean {served : List (Request P)}
    (h : ∀ r ∈ served, ¬ EndsBare P r.size) :
    Separated P (served.map Request.size).reverse := by
  induction served with
  | nil => exact List.Pairwise.nil
  | cons r rs ih =>
    rw [List.map_cons, separated_reverse_cons]
    refine ⟨fun n hn hbare => ?_, ih fun r' hr' => h r' (List.mem_cons_of_mem _ hr')⟩
    obtain ⟨r', hr', rfl⟩ := List.mem_map.mp hn
    exact absurd hbare (h r' (List.mem_cons_of_mem _ hr'))

theorem not_endsBare_zero : ¬ EndsBare P 0 := by
  have hmsg := maxBeatsPerMsg_ge (P := P)
  rw [EndsBare, show (0 : BitVec 32).toNat = 0 from rfl, Nat.zero_mod]
  decide

theorem Done.cons {r : Request P} {done : List (Request P)} (hr : Framed 0 r) (h : Done P done) :
    Done P (r :: done) := by
  intro r' hr'
  rcases List.mem_cons.mp hr' with rfl | hr'
  · exact hr
  · exact h r' hr'

namespace Progress

variable {left pos : ℕ} {served : List (Request P)}

/-- A request is taken when the others are done. -/
theorem request (h : Progress left pos served) (hleft : left = 0) (size : BitVec 32) :
    Progress size.toNat pos ({ size := size, beats := [] } :: served) := by
  rcases h with ⟨_, hdone, hsep, hpos⟩ | ⟨_, _, _, _, _, hne, _, _, _⟩ |
    ⟨_, _, _, _, hne, _, _, _, _, _⟩ | ⟨_, _, _, _, hne, _, _, _, _, _, _, _, _⟩ |
    ⟨r, hmem, x, l, hbeats, hx, hsep⟩
  · by_cases hzero : size = 0
    · refine .idle (by rw [hzero]; rfl) (hdone.cons ⟨?_, Or.inl Messages.complete_nil,
        fun _ => Messages.complete_nil⟩) ?_ ?_
      · rw [hzero]
        rfl
      · rw [List.map_cons, separated_reverse_cons]
        exact ⟨fun _ _ _ => hzero, hsep⟩
      · rcases hpos with ⟨hpos, r, hr, hbare⟩ | ⟨hpos, hclean⟩
        · exact Or.inl ⟨hpos, r, List.mem_cons_of_mem _ hr, hbare⟩
        · refine Or.inr ⟨hpos, fun r hr => ?_⟩
          rcases List.mem_cons.mp hr with rfl | hr
          · rw [hzero]
            exact not_endsBare_zero
          · exact hclean r hr
    · have hne : size.toNat ≠ 0 := fun h => hzero (BitVec.eq_of_toNat_eq h)
      rcases hpos with ⟨hpos, hbare⟩ | ⟨hpos, hclean⟩
      · exact .carried _ _ rfl rfl rfl hne hdone hbare hpos
      · exact .between _ _ rfl (Nat.zero_add _) hne hdone hclean hpos (Nat.zero_mod _)
          Messages.complete_nil
  · exact absurd hleft hne
  · exact absurd hleft hne
  · exact absurd hleft hne
  · refine .lost r (List.mem_cons_of_mem _ hmem) x l hbeats hx fun hcons => hsep ?_
    rw [List.map_cons, separated_reverse_cons] at hcons
    exact hcons.2

/-- A beat misplaced stays misplaced. -/
theorem lost_sent {r : Request P} (hmem : r ∈ served) {x : Out P} {l : List (Out P)}
    (hbeats : r.beats = x :: l) (hx : x.isHeader = false)
    (hsep : ¬ Separated P (served.map Request.size).reverse) (left pos : ℕ) (out : Out P) :
    Progress left pos ((Event.sent out).record served) := by
  cases served with
  | nil => cases hmem
  | cons first done =>
    rcases List.mem_cons.mp hmem with rfl | hmem
    · exact .lost { r with beats := r.beats ++ [out] } List.mem_cons_self x (l ++ [out])
        (by rw [hbeats]; rfl) hx hsep
    · exact .lost r (List.mem_cons_of_mem _ hmem) x l hbeats hx hsep

/-- A header is sent. -/
theorem send_header (h : Progress left 0 served) (hne : left ≠ 0) {x : Out P}
    (hx : x.isHeader = true) (htotal : payloadBeats x + 1 = min P.maxBeatsPerMsg left) :
    Progress (left - 1) 1 ((Event.sent x).record served) := by
  have hmsg := maxBeatsPerMsg_ge (P := P)
  rcases h with ⟨hleft, _, _, _⟩ | ⟨_, _, _, _, _, _, _, _, hpos⟩ |
    ⟨r, done, rfl, hlen, _, hdone, hclean, _, hmod, hwhole⟩ |
    ⟨_, _, _, _, _, _, _, _, _, hpos, _, _, _⟩ | ⟨r, hmem, y, l, hbeats, hy, hsep⟩
  · exact absurd hleft hne
  · cases hpos
  · have hnext : (r.beats ++ [x]).length = r.beats.length + 1 := List.length_append
    have hgot : (r.beats ++ [x]).length + (left - 1) = r.size.toNat := by omega
    have hplace : (r.beats.length + 1) % P.maxBeatsPerMsg = 1 := by
      rw [Nat.add_mod, hmod, Nat.zero_add, Nat.mod_mod, Nat.mod_eq_of_lt (by omega)]
    by_cases hone : left = 1
    · -- no beat of the request follows the header
      have hbare : Whole (r.beats ++ [x]) := hwhole.header hx (by omega)
      refine .idle (by omega) (hdone.cons ⟨?_, Or.inl hbare, fun _ => hbare⟩) ?_ ?_
      · rw [hone] at hgot
        exact hgot
      · refine separated_reverse_cons.mpr ⟨fun n hn hn' => ?_, separated_of_clean hclean⟩
        obtain ⟨r', hr', rfl⟩ := List.mem_map.mp hn
        exact absurd hn' (hclean r' hr')
      · refine Or.inl ⟨rfl, _, List.mem_cons_self, ?_⟩
        show r.size.toNat % _ = 1
        rw [← hlen, hone, hplace]
    · refine .inside _ done rfl hgot (by omega) hdone hclean x [] rfl ?_ ?_
        (hwhole.begin hx (by omega))
      · show (r.beats ++ [x]).length % _ = 1
        rw [hnext, hplace]
      · rw [htotal, Nat.sub_add_cancel (by omega)]
  · cases hpos
  · exact lost_sent hmem hbeats hy hsep _ _ x

/-- A beat of payload is sent. -/
theorem send_payload (h : Progress left pos served) (hne : left ≠ 0) (hpos : pos ≠ 0) {x : Out P}
    (hx : x.isHeader = false) {next : ℕ}
    (hnext : next = if pos = (P.maxBeatsPerMsg - 1) % 2 ^ 8 ∨ left = 1 then 0
      else (pos + 1) % 2 ^ 8) :
    Progress (left - 1) next ((Event.sent x).record served) := by
  have hmsg := maxBeatsPerMsg_ge (P := P)
  have hmsg' := maxBeatsPerMsg_le (P := P)
  rcases h with ⟨hleft, _, _, _⟩ | ⟨r, done, rfl, hbeats, hsize, _, hdone, hbare, _⟩ |
    ⟨_, _, _, _, _, _, _, hzero, _, _⟩ |
    ⟨r, done, rfl, hlen, _, hdone, hclean, head, payload, hplace, hmod, htotal, hbegun⟩ |
    ⟨r, hmem, y, l, hbeats, hy, hsep⟩
  · exact absurd hleft hne
  · -- the first beat of this request has no header
    refine .lost { r with beats := r.beats ++ [x] } List.mem_cons_self x [] (by rw [hbeats]; rfl)
      hx fun hsep => ?_
    obtain ⟨r', hr', hbare'⟩ := hbare
    have hzero := (separated_reverse_cons.mp hsep).1 _ (List.mem_map_of_mem hr') hbare'
    exact hne (by rw [hsize, show r.size = 0 from hzero]; rfl)
  · exact absurd hzero hpos
  · have hlength : (r.beats ++ [x]).length = r.beats.length + 1 := List.length_append
    have hgot : (r.beats ++ [x]).length + (left - 1) = r.size.toNat := by omega
    have hlast := hbegun.choose_spec.2.2.2.1
    rw [Nat.mod_eq_of_lt (show P.maxBeatsPerMsg - 1 < 2 ^ 8 by omega),
      Nat.mod_eq_of_lt (show pos + 1 < 2 ^ 8 by omega)] at hnext
    by_cases hend : pos = P.maxBeatsPerMsg - 1 ∨ left = 1
    · rw [if_pos hend] at hnext
      have hwhole : Whole (r.beats ++ [x]) := hbegun.finish hx (by omega)
      by_cases hone : left = 1
      · refine .idle (by omega) (hdone.cons ⟨?_, Or.inl hwhole, fun _ => hwhole⟩) ?_ ?_
        · rw [hone] at hgot
          exact hgot
        · refine separated_reverse_cons.mpr ⟨fun n hn hn' => ?_, separated_of_clean hclean⟩
          obtain ⟨r', hr', rfl⟩ := List.mem_map.mp hn
          exact absurd hn' (hclean r' hr')
        · refine Or.inr ⟨hnext, fun r' hr' => ?_⟩
          rcases List.mem_cons.mp hr' with rfl | hr'
          · show ¬ r.size.toNat % _ = 1
            rw [← hlen, hone, Nat.add_mod, hmod,
              Nat.mod_eq_of_lt (show 1 < P.maxBeatsPerMsg by omega)]
            by_cases hfull : pos + 1 = P.maxBeatsPerMsg
            · rw [hfull, Nat.mod_self]
              decide
            · rw [Nat.mod_eq_of_lt (by omega)]
              omega
          · exact hclean r' hr'
      · have hfull : pos + 1 = P.maxBeatsPerMsg := by omega
        refine .between _ done rfl hgot (by omega) hdone hclean hnext ?_ hwhole
        show (r.beats ++ [x]).length % _ = 0
        rw [hlength, Nat.add_mod, hmod, Nat.mod_eq_of_lt (show 1 < P.maxBeatsPerMsg by omega),
          hfull, Nat.mod_self]
    · rw [if_neg hend] at hnext
      obtain ⟨hnotlast, hnotone⟩ := not_or.mp hend
      refine .inside _ done rfl hgot (by omega) hdone hclean head (payload ++ [x]) ?_ ?_ ?_
        (hbegun.next hx (by omega))
      · rw [List.length_append, List.length_singleton]
        omega
      · show (r.beats ++ [x]).length % _ = next
        rw [hlength, Nat.add_mod, hmod, Nat.mod_eq_of_lt (show 1 < P.maxBeatsPerMsg by omega),
          hnext, Nat.mod_eq_of_lt (by omega)]
      · rw [htotal]
        congr 1
        omega
  · exact lost_sent hmem hbeats hy hsep _ _ x

end Progress

/-! ### Rules -/

/-- What `parseIncoming` does to the flood. -/
theorem parseIncoming_eq_some {s t : FloodTest P} {event : Event P}
    (h : s.parseIncoming = some (t, event)) :
    s.beatsToSend = 0 ∧ t.pos = s.pos ∧ ((t.beatsToSend = 0 ∧ event = .quiet) ∨
      ∃ size, t.beatsToSend = size.toNat ∧ event = .request size) := by
  have hrouted : ∀ beat, (s.routed beat).pos = s.pos ∧
      (s.routed beat).beatsToSend = s.beatsToSend := by
    intro beat
    rw [FloodTest.routed]
    split <;> exact ⟨rfl, rfl⟩
  rw [FloodTest.parseIncoming] at h
  split at h
  · cases h
  · next beat rest hq =>
    split at h
    · next hzero =>
      refine ⟨hzero, ?_⟩
      split at h
      · obtain ⟨rfl, rfl⟩ := Prod.mk.inj (Option.some.inj h)
        exact ⟨(hrouted beat).1, Or.inr ⟨_, rfl, rfl⟩⟩
      · split at h
        · obtain ⟨rfl, rfl⟩ := Prod.mk.inj (Option.some.inj h)
          exact ⟨(hrouted beat).1, Or.inr ⟨_, rfl, rfl⟩⟩
        · obtain ⟨rfl, rfl⟩ := Prod.mk.inj (Option.some.inj h)
          exact ⟨(hrouted beat).1, Or.inl ⟨(hrouted beat).2.trans hzero, rfl⟩⟩
    · cases h

/-- Every rule keeps track. -/
theorem progress_step {s t : Flooding P} {r : Rule P}
    (h : Progress s.test.beatsToSend s.test.pos s.served) (ht : s.fire r = some t) :
    Progress t.test.beatsToSend t.test.pos t.served := by
  obtain ⟨⟨test, event⟩, hr, rfl⟩ := Option.map_eq_some_iff.mp ht
  dsimp only
  cases r with
  | arrive beat =>
    obtain ⟨rfl, rfl⟩ := Prod.mk.inj (Option.some.inj hr)
    exact h
  | parseIncoming =>
    obtain ⟨hzero, hpos, ⟨hleft, rfl⟩ | ⟨size, hleft, rfl⟩⟩ := parseIncoming_eq_some hr
    · rw [hpos, hleft, ← hzero]
      exact h
    · rw [hpos, hleft]
      exact h.request hzero size
  | sendOutbound =>
    rw [rule, FloodTest.sendOutbound] at hr
    split at hr
    · next hne =>
      split at hr
      · next hpos =>
        obtain ⟨rfl, rfl⟩ := Prod.mk.inj (Option.some.inj hr)
        rw [hpos] at h
        have hsent := h.send_header hne rfl (payloadBeats_header hne true)
        rw [hpos]
        exact hsent
      · next hpos =>
        obtain ⟨rfl, rfl⟩ := Prod.mk.inj (Option.some.inj hr)
        exact h.send_payload hne hpos rfl rfl
    · cases hr

theorem progress_of_reachable {s : Flooding P} (h : (flooding P).Reachable s) :
    Progress s.test.beatsToSend s.test.pos s.served := by
  refine h.invariant (P := fun s => Progress s.test.beatsToSend s.test.pos s.served) ?_ ?_
  · rintro s rfl
    refine .idle rfl (fun r hr => ?_) List.Pairwise.nil (Or.inr ⟨rfl, fun r hr => ?_⟩)
    · cases hr
    · cases hr
  · rintro s t hs ⟨r, ht⟩
    exact progress_step hs ht

/-! ### Every sequence of requests -/

/-- Nothing waits to be parsed, and no request is half parsed. -/
structure Parsed (s : FloodTest P) : Prop where
  beatsIn : s.beatsIn = []
  beatInIdx : s.beatInIdx = 0

theorem Flooding.sizes_sent (served : List (Request P)) (out : Out P) :
    ((Event.sent out).record served).map Request.size = served.map Request.size := by
  cases served <;> rfl

/-- The beats of a request are sent. -/
theorem exists_sent {s : Flooding P} (h : (flooding P).Reachable s) (hparsed : Parsed s.test) :
    ∃ t, (flooding P).Reachable t ∧ Parsed t.test ∧ t.test.beatsToSend = 0 ∧ t.sizes = s.sizes := by
  induction hk : s.test.beatsToSend generalizing s with
  | zero => exact ⟨s, h, hparsed, hk, rfl⟩
  | succ k ih =>
    obtain ⟨t, ht, hnext, hleft, hsizes⟩ : ∃ t, s.fire .sendOutbound = some t ∧ Parsed t.test ∧
        t.test.beatsToSend = k ∧ t.sizes = s.sizes := by
      rw [Flooding.fire, rule, FloodTest.sendOutbound, if_pos (by omega), hk]
      split
      · exact ⟨_, rfl, ⟨hparsed.beatsIn, hparsed.beatInIdx⟩, rfl,
          congrArg List.reverse (Flooding.sizes_sent _ _)⟩
      · exact ⟨_, rfl, ⟨hparsed.beatsIn, hparsed.beatInIdx⟩, rfl,
          congrArg List.reverse (Flooding.sizes_sent _ _)⟩
    obtain ⟨u, hu, hparsed', hzero, hsizes'⟩ := ih (h.step ⟨_, ht⟩) hnext hleft
    exact ⟨u, hu, hparsed', hzero, hsizes'.trans hsizes⟩

/-- A request comes and is parsed. -/
theorem exists_request {s : Flooding P} (h : (flooding P).Reachable s) (hparsed : Parsed s.test)
    (hzero : s.test.beatsToSend = 0) (size : BitVec 32) :
    ∃ t, (flooding P).Reachable t ∧ Parsed t.test ∧ t.sizes = s.sizes ++ [size] := by
  have hrouted : ∀ (s : FloodTest P) (beat : Beat P), (s.routed beat).beatInIdx = s.beatInIdx := by
    intro s beat
    rw [FloodTest.routed]
    split <;> rfl
  have happend : ∀ t : Flooding P, t.served = { size := size, beats := [] } :: s.served →
      t.sizes = s.sizes ++ [size] := by
    intro t ht
    rw [Flooding.sizes, ht, List.map_cons, List.reverse_cons]
    rfl
  by_cases hlong : 4 < P.beatBytes
  · -- one beat has the length behind the header
    have hwidth : 64 ≤ P.width := by
      rw [Params.width]
      rcases P.beatBytes_eq with hb | hb | hb <;> omega
    have hsize : (((size ++ (0 : BitVec 32)).setWidth P.width).extractLsb' 32 32) = size := by
      refine BitVec.eq_of_getLsbD_eq fun i hi => ?_
      rw [BitVec.getLsbD_extractLsb', BitVec.getLsbD_setWidth, BitVec.getLsbD_append]
      simp [hi, show 32 + i < P.width by omega]
    have harrive := h.step ⟨.arrive ((size ++ (0 : BitVec 32)).setWidth P.width), rfl⟩
    obtain ⟨t, ht, hnext, hserved⟩ : ∃ t, Flooding.fire .parseIncoming
        { test := { s.test with
            beatsIn := s.test.beatsIn ++ [(size ++ (0 : BitVec 32)).setWidth P.width] }
          served := s.served } = some t ∧ Parsed t.test ∧
        t.served = { size := size, beats := [] } :: s.served := by
      rw [hparsed.beatsIn, List.nil_append, Flooding.fire, rule, FloodTest.parseIncoming]
      dsimp only
      rw [if_pos hzero, if_pos hlong, hsize]
      exact ⟨_, rfl, ⟨rfl, (hrouted _ _).trans hparsed.beatInIdx⟩, rfl⟩
    exact ⟨t, harrive.step ⟨_, ht⟩, hnext, happend t hserved⟩
  · have hwidth : 32 ≤ P.width := by
      rw [Params.width]
      rcases P.beatBytes_eq with hb | hb | hb <;> omega
    have hsize : ((size.setWidth P.width).extractLsb' 0 32) = size := by
      refine BitVec.eq_of_getLsbD_eq fun i hi => ?_
      rw [BitVec.getLsbD_extractLsb', BitVec.getLsbD_setWidth]
      simp [hi, show i < P.width by omega]
    have harrive := (h.step ⟨.arrive 0, rfl⟩).step ⟨.arrive (size.setWidth P.width), rfl⟩
    obtain ⟨t, ht, hnext, hleft, hserved⟩ : ∃ t, Flooding.fire .parseIncoming
        { test := { s.test with
            beatsIn := s.test.beatsIn ++ [0] ++ [size.setWidth P.width] }
          served := s.served } = some t ∧
        (t.test.beatsIn = [size.setWidth P.width] ∧ t.test.beatInIdx = 1) ∧
        t.test.beatsToSend = 0 ∧ t.served = s.served := by
      rw [hparsed.beatsIn, Flooding.fire, rule, FloodTest.parseIncoming]
      dsimp only [List.nil_append, List.cons_append]
      rw [if_pos hzero, if_neg hlong, if_neg (by rw [hparsed.beatInIdx]; decide)]
      refine ⟨_, rfl, ⟨rfl, rfl⟩, ?_, rfl⟩
      rw [FloodTest.routed]
      split <;> exact hzero
    obtain ⟨u, hu, hnext', hserved'⟩ : ∃ u, t.fire .parseIncoming = some u ∧ Parsed u.test ∧
        u.served = { size := size, beats := [] } :: t.served := by
      rw [Flooding.fire, rule, FloodTest.parseIncoming, hnext.1]
      dsimp only
      rw [if_pos hleft, if_neg hlong, if_pos hnext.2, hsize]
      exact ⟨_, rfl, ⟨rfl, rfl⟩, rfl⟩
    exact ⟨u, (harrive.step ⟨_, ht⟩).step ⟨_, hu⟩, hnext',
      happend u (hserved'.trans (by rw [hserved]))⟩

/-- **Every sequence of requests** is answered by some run. -/
theorem exists_served (sizes : List (BitVec 32)) :
    ∃ s, (flooding P).Reachable s ∧ s.test.beatsToSend = 0 ∧ s.sizes = sizes := by
  have key : ∃ s, (flooding P).Reachable s ∧ Parsed s.test ∧ s.test.beatsToSend = 0 ∧
      s.sizes = sizes := by
    induction sizes using List.reverseRecOn with
    | nil => exact ⟨.reset P, .init rfl, ⟨rfl, rfl⟩, rfl, rfl⟩
    | append_singleton sizes size ih =>
      obtain ⟨s, hs, hparsed, hzero, hsizes⟩ := ih
      obtain ⟨t, ht, hparsed', hsizes'⟩ := exists_request hs hparsed hzero size
      obtain ⟨u, hu, hparsed'', hzero', hsizes''⟩ := exists_sent ht hparsed'
      exact ⟨u, hu, hparsed'', hzero', by rw [hsizes'', hsizes', hsizes]⟩
  obtain ⟨s, hs, _, hzero, hsizes⟩ := key
  exact ⟨s, hs, hzero, hsizes⟩

/-! ### Well-formed streams -/

theorem not_framed_of_misplaced {left : ℕ} {r : Request P} {x : Out P} {l : List (Out P)}
    (hbeats : r.beats = x :: l) (hx : x.isHeader = false) : ¬ Framed left r := by
  intro h
  -- the first beat of a stream of messages is a header
  have hfirst : ∀ {l₀ rest : List (Out P)}, Whole l₀ → l₀ ++ rest = x :: l → l₀ = [] := by
    rintro l₀ rest ⟨ms, hms, rfl⟩ heq
    cases ms with
    | nil => rfl
    | cons m ms =>
      obtain ⟨head, payload, rfl, hhead, _, _⟩ := hms m List.mem_cons_self
      obtain ⟨rfl, _⟩ := List.cons.inj heq
      rw [hx] at hhead
      cases hhead
  rcases h.messages with hwhole | ⟨head, payload, l₀, hwhole, heq, hhead, _, _⟩
  · have hnil := hfirst hwhole ((List.append_nil _).trans hbeats)
    rw [hbeats] at hnil
    cases hnil
  · have hnil := hfirst hwhole (heq.symm.trans hbeats)
    rw [hnil, hbeats, List.nil_append] at heq
    obtain ⟨rfl, _⟩ := List.cons.inj heq
    rw [hx] at hhead
    cases hhead

/-- Before any beat is misplaced the stream is well formed. -/
theorem Progress.wellFramed {s : Flooding P}
    (h : Progress s.test.beatsToSend s.test.pos s.served) (hsep : Separated P s.sizes) :
    WellFramed s := by
  rcases h with ⟨hleft, hdone, _, _⟩ | ⟨r, done, hserved, _, hsize, hne, _, ⟨r', hr', hbare⟩, _⟩ |
    ⟨r, done, hserved, hlen, hne, hdone, _, _, _, hwhole⟩ |
    ⟨r, done, hserved, hlen, hne, hdone, _, head, payload, _, _, _, hbegun⟩ |
    ⟨_, _, _, _, _, _, hsep'⟩
  · refine ⟨fun r hr => ?_, fun r hr => hdone r (List.mem_of_mem_tail hr)⟩
    rw [hleft]
    exact hdone r (List.mem_of_mem_head? hr)
  · rw [Flooding.sizes, hserved, List.map_cons, separated_reverse_cons] at hsep
    have hzero := hsep.1 _ (List.mem_map_of_mem hr') hbare
    exact absurd (by rw [hsize, hzero]; rfl) hne
  · rw [WellFramed, hserved]
    refine ⟨fun r' hr' => ?_, hdone⟩
    obtain rfl := Option.some.inj hr'
    exact ⟨hlen, Or.inl hwhole, fun hzero => absurd hzero hne⟩
  · rw [WellFramed, hserved]
    refine ⟨fun r' hr' => ?_, hdone⟩
    obtain rfl := Option.some.inj hr'
    exact ⟨hlen, Or.inr ⟨head, payload, hbegun⟩, fun hzero => absurd hzero hne⟩
  · exact absurd hsep hsep'

/-- **A flood is well formed** in every run with these requests exactly if none whose last message
is a header alone comes before one that is not empty. -/
theorem wellFramed_iff (P : Params) (sizes : List (BitVec 32)) :
    (∀ s, (flooding P).Reachable s → s.sizes = sizes → WellFramed s) ↔ Separated P sizes := by
  constructor
  · intro h
    obtain ⟨s, hs, hzero, hsizes⟩ := exists_served (P := P) sizes
    have hframed := h s hs hsizes
    rw [← hsizes]
    rcases progress_of_reachable hs with ⟨_, _, hsep, _⟩ | ⟨_, _, _, _, _, hne, _, _, _⟩ |
      ⟨_, _, _, _, hne, _, _, _, _, _⟩ | ⟨_, _, _, _, hne, _, _, _, _, _, _, _, _⟩ |
      ⟨r, hmem, x, l, hbeats, hx, _⟩
    · exact hsep
    · exact absurd hzero hne
    · exact absurd hzero hne
    · exact absurd hzero hne
    · exfalso
      cases hserved : s.served with
      | nil =>
        rw [hserved] at hmem
        cases hmem
      | cons first done =>
        rw [WellFramed, hserved] at hframed
        rw [hserved] at hmem
        rcases List.mem_cons.mp hmem with rfl | hmem
        · exact not_framed_of_misplaced hbeats hx (hframed.1 r rfl)
        · exact not_framed_of_misplaced hbeats hx (hframed.2 r hmem)
  · intro hsep s hs hsizes
    rw [← hsizes] at hsep
    exact (progress_of_reachable hs).wellFramed hsep

theorem eight_cases : 8 = 4 ∨ 8 = 8 ∨ 8 = 16 := Or.inr (Or.inl rfl)

/-- Beats of eight bytes. -/
def wide : Params := { beatBytes := 8, beatBytes_eq := eight_cases }

/-- A request for one beat, and one for two. -/
def bareThenTwo : List (Rule wide) :=
  [.arrive 0x100000300, .parseIncoming, .sendOutbound, .arrive 0x200000300, .parseIncoming,
    .sendOutbound, .sendOutbound]

/-- The second request gets no header. -/
theorem not_wellFramed_bareThenTwo :
    ¬ ∀ sizes s, (flooding wide).Reachable s → s.sizes = sizes → WellFramed s := by
  intro h
  obtain ⟨s, hrun, hserved⟩ : ∃ s, bareThenTwo.foldlM (fun s r => Flooding.fire r s)
      (Flooding.reset wide) = some s ∧ s.served =
        [{ size := 2, beats := [{ beat := 0x400000002, isHeader := false },
            { beat := 0x200000001, isHeader := false }] },
          { size := 1, beats := [{ beat := 0x1040003, isHeader := true }] }] := ⟨_, rfl, rfl⟩
  have hs : (flooding wide).Reachable s :=
    TransitionSystem.Reachable.run (M := flooding wide) (f := Flooding.fire)
      (fun r _ _ ht => ⟨r, ht⟩) (.init rfl) hrun
  have hframed := (h s.sizes s hs rfl).1
  rw [hserved] at hframed
  exact not_framed_of_misplaced rfl rfl (hframed _ rfl)

end Flood

end PciExpress

end LeapPlatforms
