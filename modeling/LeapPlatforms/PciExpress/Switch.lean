import LeapPlatforms.Foundation.Messages
import LeapPlatforms.Foundation.TransitionSystem
import Mathlib.Data.BitVec
import Mathlib.Data.Nat.Log
import Mathlib.Algebra.Order.Ring.Nat

/-!
# The switch `mkSimpleSwitch`

One primary port and some secondary ports. Messages from the primary port go where their first beat
says; messages from the secondary ports all go to the primary port, one whole message at a time.

`MsgRoute` follows a stream of beats and says which are the first and the last of a message, and
where it goes; the arbiter may choose any port. Both are parameters. `checkPrimarySink` fills a wire
that `routeFromPrimary` empties in the same cycle, and `routeToPrimary` one that `updateCurSink`
empties: each of the two pairs is one step. Beats leave the switch at any time, so a full output is
a rule that does not fire yet.

## Main definitions

* `MsgRoute`, `MsgRoute.Marks` — what the switch relies on
* `Switch` — the registers and queues, and the rules on them
* `ToPrimary`, `FromPrimary` — what holds of either direction

## Main results

* `toPrimary_of_reachable`, `fromPrimary_of_reachable`
* `destination_zero_dropped` — a message for port 0, which is the primary port itself
* `whole_messages`
-/

namespace LeapPlatforms

namespace PciExpress

namespace SimpleSwitch

open Messages (remaining IsMessage Complete Open)

/-! ### What follows a stream -/

/-- `MsgRoute`: a follower of a stream of beats. -/
structure MsgRoute (β : Type) where
  /-- Its state. -/
  σ : Type
  /-- The state after reset. -/
  init : σ
  /-- `first_beat`, of the current beat. -/
  firstBeat : σ → β → Bool
  /-- `last_beat`. -/
  lastBeat : σ → β → Bool
  /-- `dst`. -/
  dst : σ → β → BitVec 8
  /-- `advance` past the current beat. -/
  advance : σ → β → σ

namespace MsgRoute

variable {β : Type} (R : MsgRoute β)

/-- The state after some beats. -/
def after (l : List β) : R.σ := l.foldl R.advance R.init

theorem after_concat (l : List β) (b : β) : R.after (l ++ [b]) = R.advance (R.after l) b := by
  simp [after]

/-- It marks the first and the last beat of every message, where `len` says how many beats follow a
header, and gives the destination in it. -/
structure Marks (len : β → ℕ) (dst : β → BitVec 8) : Prop where
  /-- The first beat comes where nothing is waited for. -/
  firstBeat : ∀ l b, R.firstBeat (R.after l) b = (remaining len 0 l == 0)
  /-- After the last beat nothing is waited for. -/
  lastBeat : ∀ l b, R.lastBeat (R.after l) b = (remaining len 0 (l ++ [b]) == 0)
  /-- The destination is that of the header. -/
  dst : ∀ l b, remaining len 0 l = 0 → R.dst (R.after l) b = dst b

end MsgRoute

/-! ### The module -/

/-- What an instance of the module is built with. -/
structure Params where
  /-- `n_PORTS`. -/
  nPorts : ℕ
  /-- There is a last port. -/
  nPorts_pos : 0 < nPorts
  /-- A number of ports is compared with a destination. -/
  nPorts_lt : nPorts < 2 ^ 8

variable (P : Params)

/-- `t_PORT_IDX`. -/
abbrev PortIdx : Type := BitVec (Nat.clog 2 P.nPorts)

/-- A secondary port. -/
abbrev Port : Type := Fin P.nPorts

variable {P} {β : Type} (R : MsgRoute β)

variable (P) in
/-- The port that a destination is routed to. -/
def portIdx (dst : BitVec 8) : PortIdx P :=
  if BitVec.ofNat 8 P.nPorts ≤ dst then BitVec.ofNat _ (P.nPorts - 1) else (dst - 1).setWidth _

variable (P) in
/-- The registers and queues of the module. -/
structure Switch where
  /-- `sinkPorts`: beats that came to the secondary ports. -/
  sinkPorts : Port P → List β
  /-- `primSinkPort`: beats that came to the primary port. -/
  primSinkPort : List β
  /-- `curDst`. -/
  curDst : PortIdx P
  /-- `curSink`. -/
  curSink : Option (Port P)
  /-- `primRoute`. -/
  primRoute : R.σ
  /-- `sinkRoute`. -/
  sinkRoute : R.σ
  /-- History: the beats that came to the secondary ports. -/
  arrived : Port P → List β
  /-- History: the beats that came to the primary port. -/
  primArrived : List β
  /-- History: the beats put into `sourcePorts`. -/
  sourcePorts : Port P → List β
  /-- History: the beats put into `primSourcePort`, each with the port it came from. -/
  primSourcePort : List (Port P × β)

namespace Switch

variable {R}

variable (P R) in
/-- The switch after reset. -/
def reset : Switch P R where
  sinkPorts := fun _ => []
  primSinkPort := []
  curDst := 0
  curSink := none
  primRoute := R.init
  sinkRoute := R.init
  arrived := fun _ => []
  primArrived := []
  sourcePorts := fun _ => []
  primSourcePort := []

/-- A beat comes to a secondary port. -/
def arrive (p : Port P) (beat : β) (s : Switch P R) : Switch P R :=
  { s with
    sinkPorts := Function.update s.sinkPorts p (s.sinkPorts p ++ [beat])
    arrived := Function.update s.arrived p (s.arrived p ++ [beat]) }

/-- A beat comes to the primary port. -/
def primArrive (beat : β) (s : Switch P R) : Switch P R :=
  { s with primSinkPort := s.primSinkPort ++ [beat], primArrived := s.primArrived ++ [beat] }

/-- `rule checkPrimarySink` and `rule routeFromPrimary`. -/
def routeFromPrimary (s : Switch P R) : Option (Switch P R) :=
  match s.primSinkPort with
  | [] => none
  | beat :: rest =>
    let dst := if R.firstBeat s.primRoute beat then portIdx P (R.dst s.primRoute beat) else s.curDst
    some { s with
      primSinkPort := rest
      primRoute := R.advance s.primRoute beat
      -- no port has an index past the last one
      sourcePorts := fun p =>
        if dst.toNat = p.val then s.sourcePorts p ++ [beat] else s.sourcePorts p
      curDst := dst }

/-- `rule routeToPrimary` and `rule updateCurSink`. The arbiter answers `choice`, if it is asked. -/
def routeToPrimary (choice : Option (Port P)) (s : Switch P R) : Option (Switch P R) :=
  match s.curSink.or choice with
  | none => none
  | some idx =>
    match s.sinkPorts idx with
    | [] => none
    | beat :: rest =>
      some { s with
        sinkPorts := Function.update s.sinkPorts idx rest
        primSourcePort := s.primSourcePort ++ [(idx, beat)]
        sinkRoute := R.advance s.sinkRoute beat
        curSink := if R.lastBeat s.sinkRoute beat then none else some idx }

end Switch

/-- The rules of the module, and what comes to its ports. -/
inductive Rule (P : Params) (β : Type)
  | arrive (p : Port P) (beat : β)
  | primArrive (beat : β)
  | routeFromPrimary
  | routeToPrimary (choice : Option (Port P))

variable {R}

/-- A step of the switch. -/
def rule : Rule P β → Switch P R → Option (Switch P R)
  | .arrive p beat, s => some (s.arrive p beat)
  | .primArrive beat, s => some (s.primArrive beat)
  | .routeFromPrimary, s => s.routeFromPrimary
  | .routeToPrimary choice, s => s.routeToPrimary choice

variable (P R) in
/-- The runs of a switch. -/
def switch : TransitionSystem (Switch P R) where
  init s := s = .reset P R
  step s t := ∃ r, rule r s = some t

/-! ### Ports -/

/-- A destination from 1 on is that of a port, or is past the last one. -/
theorem toNat_portIdx {dst : BitVec 8} (h : dst ≠ 0) :
    (portIdx P dst).toNat = if P.nPorts ≤ dst.toNat then P.nPorts - 1 else dst.toNat - 1 := by
  have hlt := P.nPorts_lt
  have hclog : P.nPorts ≤ 2 ^ Nat.clog 2 P.nPorts := Nat.le_pow_clog (by decide) _
  have hpos := P.nPorts_pos
  have hdst : 1 ≤ dst.toNat := by
    by_contra hzero
    exact h (BitVec.eq_of_toNat_eq (by simpa using hzero))
  have hle : BitVec.ofNat 8 P.nPorts ≤ dst ↔ P.nPorts ≤ dst.toNat := by
    rw [BitVec.le_def, BitVec.toNat_ofNat, Nat.mod_eq_of_lt hlt]
  rw [portIdx]
  by_cases hge : P.nPorts ≤ dst.toNat
  · rw [if_pos (hle.mpr hge), if_pos hge, BitVec.toNat_ofNat, Nat.mod_eq_of_lt (by omega)]
  · rw [if_neg (fun hd => hge (hle.mp hd)), if_neg hge]
    have hsub : (dst - 1).toNat = dst.toNat - 1 := by
      have hdstlt := dst.isLt
      rw [BitVec.toNat_sub]
      show (2 ^ 8 - 1 + dst.toNat) % 2 ^ 8 = _
      omega
    rw [BitVec.toNat_setWidth, hsub, Nat.mod_eq_of_lt (by omega)]

theorem portIdx_lt {dst : BitVec 8} (h : dst ≠ 0) : (portIdx P dst).toNat < P.nPorts := by
  have hpos := P.nPorts_pos
  rw [toNat_portIdx h]
  split <;> omega

/-! ### To the primary port -/

/-- The length of a message, of beats that say where they came from. -/
def portLen (len : β → ℕ) (x : Port P × β) : ℕ := len x.2

/-- Any beat may begin a message. -/
def anyHead (_ : Port P × β) : Prop := True

/-- A message comes from one port. -/
def samePort (h x : Port P × β) : Prop := x.1 = h.1

/-- The beats of one port. -/
def fromPort (p : Port P) (l : List (Port P × β)) : List β :=
  (l.filter fun x => x.1 = p).map Prod.snd

/-- What was sent, where a port keeps the switch or none does. -/
def Locked (len : β → ℕ) (sent : List (Port P × β)) : Option (Port P) → Prop
  | none => Complete (portLen len) anyHead samePort sent
  | some p => ∃ h payload, h.1 = p ∧ Open (portLen len) anyHead samePort sent h payload

/-- What the primary port sends is one message after another, and what each port sent is in it. -/
structure ToPrimary (len : β → ℕ) (s : Switch P R) : Prop where
  /-- No beat of a port is lost, or repeated, or overtaken by another of the same port. -/
  conserved : ∀ p, fromPort p s.primSourcePort ++ s.sinkPorts p = s.arrived p
  /-- `sinkRoute` has seen what was sent. -/
  route : s.sinkRoute = R.after (s.primSourcePort.map Prod.snd)
  /-- A port keeps the switch for one message. -/
  locked : Locked len s.primSourcePort s.curSink

namespace ToPrimary

variable {len : β → ℕ} {dst : β → BitVec 8} {s t : Switch P R}

theorem arrive (h : ToPrimary len s) (p : Port P) (beat : β) :
    ToPrimary len (s.arrive p beat) := by
  refine { h with conserved := fun q => ?_ }
  show fromPort q s.primSourcePort ++ Function.update s.sinkPorts p _ q =
    Function.update s.arrived p _ q
  by_cases hq : q = p
  · rw [hq, Function.update_self, Function.update_self, ← List.append_assoc, h.conserved p]
  · rw [Function.update_of_ne hq, Function.update_of_ne hq, h.conserved q]

theorem routeToPrimary (hR : R.Marks len dst) (h : ToPrimary len s) {choice : Option (Port P)}
    (ht : s.routeToPrimary choice = some t) : ToPrimary len t := by
  rw [Switch.routeToPrimary] at ht
  split at ht
  · cases ht
  · next idx hidx =>
    split at ht
    · cases ht
    · next beat rest hq =>
      obtain rfl := Option.some.inj ht
      have hmap : remaining len 0 (s.primSourcePort.map Prod.snd ++ [beat]) =
          remaining (portLen len) 0 (s.primSourcePort ++ [(idx, beat)]) := by
        rw [← List.map_singleton (f := Prod.snd) (a := (idx, beat)), ← List.map_append,
          Messages.remaining_map]
        rfl
      have hlast : R.lastBeat s.sinkRoute beat =
          (remaining (portLen len) 0 (s.primSourcePort ++ [(idx, beat)]) == 0) := by
        rw [h.route, hR.lastBeat, hmap]
      constructor
      case conserved =>
        intro q
        show fromPort q (s.primSourcePort ++ [(idx, beat)]) ++
          Function.update s.sinkPorts idx rest q = s.arrived q
        rw [← h.conserved q]
        by_cases hqi : q = idx
        · rw [hqi, Function.update_self, hq]
          simp [fromPort]
        · rw [Function.update_of_ne hqi]
          simp [fromPort, Ne.symm hqi]
      case route =>
        show R.advance s.sinkRoute beat = R.after ((s.primSourcePort ++ [(idx, beat)]).map Prod.snd)
        rw [List.map_append, List.map_singleton, R.after_concat, h.route]
      case locked =>
        have hlocked := h.locked
        show Locked len _ (if R.lastBeat s.sinkRoute beat then none else some idx)
        rw [hlast]
        cases hcur : s.curSink with
        | none =>
          -- a first beat
          rw [hcur] at hlocked
          have hrem : remaining (portLen len) 0 (s.primSourcePort ++ [(idx, beat)]) = len beat := by
            rw [Messages.remaining_append, Complete.remaining_eq hlocked]
            exact Messages.remaining_nil (β := Port P × β) (portLen len) (len beat)
          rw [hrem]
          rcases Nat.eq_zero_or_pos (len beat) with hzero | hpos
          · rw [if_pos (by simpa using hzero)]
            exact hlocked.header trivial hzero
          · rw [if_neg (by simp; omega)]
            exact ⟨(idx, beat), [], rfl, hlocked.begin trivial hpos⟩
        | some p =>
          rw [hcur] at hlocked hidx
          obtain rfl : p = idx := by simpa using hidx
          obtain ⟨head, payload, hp, hopen⟩ := hlocked
          have hlt : payload.length < portLen len head := by
            obtain ⟨_, _, _, _, hlt, _⟩ := hopen
            exact hlt
          obtain ⟨r, hr⟩ : ∃ r, portLen len head = payload.length + 1 + r :=
            ⟨portLen len head - (payload.length + 1), by omega⟩
          have hrem : remaining (portLen len) 0 (s.primSourcePort ++ [(p, beat)]) = r := by
            rw [Messages.remaining_append, hopen.remaining_eq, hr,
              show payload.length + 1 + r - payload.length = r + 1 by omega]
            rfl
          rw [hrem]
          cases r with
          | zero => exact hopen.finish hp.symm hr.symm
          | succ r => exact ⟨head, payload ++ [(p, beat)], hp, hopen.next hp.symm (by omega)⟩

end ToPrimary

/-! ### From the primary port -/

variable (P) in
/-- Whether a message is for a port: its first beat says so. -/
def isFor (dst : β → BitVec 8) (p : Port P) (m : List β) : Bool :=
  match m with
  | [] => false
  | h :: _ => (portIdx P (dst h)).toNat == p.val

/-- Every message that came to the primary port went whole to one port. -/
structure FromPrimary (len : β → ℕ) (dst : β → BitVec 8) (s : Switch P R) : Prop where
  /-- The beats taken from the primary port are whole messages and the beginning of one more; each
  port has those messages that are for it. -/
  delivered : ∃ (ms : List (List β)) (last : List β),
    s.primArrived = ms.flatten ++ last ++ s.primSinkPort ∧
    s.primRoute = R.after (ms.flatten ++ last) ∧
    (∀ m ∈ ms, IsMessage len (fun _ => True) (fun _ _ => True) m) ∧
    (last = [] ∨ ∃ h payload, last = h :: payload ∧ payload.length < len h ∧
      s.curDst = portIdx P (dst h)) ∧
    ∀ p, s.sourcePorts p =
      (ms.filter (isFor P dst p)).flatten ++ if isFor P dst p last then last else []

namespace FromPrimary

variable {len : β → ℕ} {dst : β → BitVec 8} {s t : Switch P R}

theorem primArrive (h : FromPrimary len dst s) (beat : β) :
    FromPrimary len dst (s.primArrive beat) := by
  obtain ⟨ms, last, harrived, hrest⟩ := h.delivered
  exact ⟨ms, last, by rw [Switch.primArrive, harrived, List.append_assoc], hrest⟩

/-- What a message adds to a port. -/
theorem flatten_filter_concat (ms : List (List β)) (m : List β) (p : Port P) :
    ((ms ++ [m]).filter (isFor P dst p)).flatten =
      (ms.filter (isFor P dst p)).flatten ++ if isFor P dst p m then m else [] := by
  rw [List.filter_append, List.flatten_append]
  by_cases h : isFor P dst p m = true
  · simp [h]
  · simp [h]

theorem remaining_flatten {ms : List (List β)}
    (hms : ∀ m ∈ ms, IsMessage len (fun _ => True) (fun _ _ => True) m) :
    remaining len 0 ms.flatten = 0 :=
  Complete.remaining_eq ⟨ms, hms, rfl⟩

theorem routeFromPrimary (hR : R.Marks len dst) (h : FromPrimary len dst s)
    (ht : s.routeFromPrimary = some t) : FromPrimary len dst t := by
  obtain ⟨ms, last, harrived, hroute, hms, hlast, hports⟩ := h.delivered
  have hwhole := remaining_flatten hms
  rw [Switch.routeFromPrimary] at ht
  split at ht
  · cases ht
  · next beat rest hq =>
    rw [hq] at harrived
    have hnext : ∀ l, R.advance s.primRoute beat = R.after l ↔
        R.after (ms.flatten ++ last ++ [beat]) = R.after l := by
      intro l
      rw [R.after_concat, hroute]
    rcases hlast with rfl | ⟨head, payload, rfl, hlen, hdst⟩
    · -- a first beat
      rw [List.append_nil] at harrived hroute hnext
      have hfirst : R.firstBeat s.primRoute beat = true := by
        rw [hroute, hR.firstBeat, hwhole]
        rfl
      have hbeat : R.dst s.primRoute beat = dst beat := by
        rw [hroute, hR.dst _ _ hwhole]
      dsimp only at ht
      rw [hfirst, if_pos rfl, hbeat] at ht
      obtain rfl := Option.some.inj ht
      have hports' : ∀ p : Port P, (if (portIdx P (dst beat)).toNat = p.val then
          s.sourcePorts p ++ [beat] else s.sourcePorts p) =
            (ms.filter (isFor P dst p)).flatten ++
              if isFor P dst p [beat] then [beat] else [] := by
        intro p
        have hp := hports p
        rw [isFor] at hp
        simp only [Bool.false_eq_true, if_false, List.append_nil] at hp
        rw [hp, isFor]
        by_cases hfor : (portIdx P (dst beat)).toNat = p.val <;> simp [hfor]
      rcases Nat.eq_zero_or_pos (len beat) with hzero | hpos
      · refine ⟨ms ++ [[beat]], [], ?_, ?_, ?_, Or.inl rfl, fun p => ?_⟩
        · rw [harrived]
          simp
        · rw [hnext]
          simp
        · intro m hm
          rcases List.mem_append.mp hm with hm | hm
          · exact hms m hm
          · rw [List.mem_singleton.mp hm]
            exact ⟨beat, [], rfl, trivial, hzero.symm, by simp⟩
        · show (if (portIdx P (dst beat)).toNat = p.val then _ else _) = _
          rw [hports' p, flatten_filter_concat]
          simp
      · refine ⟨ms, [beat], ?_, ?_, hms, Or.inr ⟨beat, [], rfl, hpos, rfl⟩, hports'⟩
        · rw [harrived]
          simp
        · rw [hnext]
    · -- a beat of the message begun before
      have hrem : remaining len 0 (ms.flatten ++ head :: payload) = len head - payload.length := by
        rw [Messages.remaining_append, hwhole, Messages.remaining_zero_cons,
          Messages.remaining_of_le _ (by omega)]
      have hfirst : R.firstBeat s.primRoute beat = false := by
        rw [hroute, hR.firstBeat, hrem]
        exact beq_eq_false_iff_ne.mpr (by omega)
      dsimp only at ht
      rw [hfirst, if_neg (by simp), hdst] at ht
      obtain rfl := Option.some.inj ht
      have hports' : ∀ p : Port P, (if (portIdx P (dst head)).toNat = p.val then
          s.sourcePorts p ++ [beat] else s.sourcePorts p) =
            (ms.filter (isFor P dst p)).flatten ++
              if isFor P dst p (head :: payload ++ [beat]) then head :: payload ++ [beat]
              else [] := by
        intro p
        rw [hports p, List.cons_append, isFor, isFor]
        by_cases hfor : (portIdx P (dst head)).toNat = p.val <;> simp [hfor]
      rcases Nat.lt_or_ge (payload.length + 1) (len head) with hlt | hge
      · refine ⟨ms, head :: payload ++ [beat], ?_, ?_, hms,
          Or.inr ⟨head, payload ++ [beat], rfl, ?_, rfl⟩, hports'⟩
        · rw [harrived]
          simp
        · rw [hnext]
          simp
        · simpa using hlt
      · refine ⟨ms ++ [head :: payload ++ [beat]], [], ?_, ?_, ?_, Or.inl rfl, fun p => ?_⟩
        · rw [harrived]
          simp
        · rw [hnext]
          simp
        · intro m hm
          rcases List.mem_append.mp hm with hm | hm
          · exact hms m hm
          · rw [List.mem_singleton.mp hm]
            refine ⟨head, payload ++ [beat], rfl, trivial, ?_, by simp⟩
            rw [List.length_append, List.length_singleton]
            omega
        · show (if (portIdx P (dst head)).toNat = p.val then _ else _) = _
          rw [hports' p, flatten_filter_concat, isFor]
          simp

theorem arrive (h : FromPrimary len dst s) (p : Port P) (beat : β) :
    FromPrimary len dst (s.arrive p beat) := ⟨h.delivered⟩

theorem routeToPrimary (h : FromPrimary len dst s) {choice : Option (Port P)}
    (ht : s.routeToPrimary choice = some t) : FromPrimary len dst t := by
  rw [Switch.routeToPrimary] at ht
  split at ht
  · cases ht
  · split at ht
    · cases ht
    · obtain rfl := Option.some.inj ht
      exact ⟨h.delivered⟩

end FromPrimary

/-! ### Runs -/

variable {len : β → ℕ} {dst : β → BitVec 8}

theorem ToPrimary.primArrive {s : Switch P R} (h : ToPrimary len s) (beat : β) :
    ToPrimary len (s.primArrive beat) := ⟨h.conserved, h.route, h.locked⟩

theorem ToPrimary.routeFromPrimary {s t : Switch P R} (h : ToPrimary len s)
    (ht : s.routeFromPrimary = some t) : ToPrimary len t := by
  rw [Switch.routeFromPrimary] at ht
  split at ht
  · cases ht
  · obtain rfl := Option.some.inj ht
    exact ⟨h.conserved, h.route, h.locked⟩

theorem toPrimary_of_reachable (hR : R.Marks len dst) {s : Switch P R}
    (hs : (switch P R).Reachable s) : ToPrimary len s := by
  refine hs.invariant ?_ ?_
  · rintro _ rfl
    exact ⟨fun _ => rfl, rfl, Messages.complete_nil⟩
  · rintro s t h ⟨r, hr⟩
    cases r with
    | arrive p beat =>
      obtain rfl := Option.some.inj hr
      exact h.arrive p beat
    | primArrive beat =>
      obtain rfl := Option.some.inj hr
      exact h.primArrive beat
    | routeFromPrimary => exact h.routeFromPrimary hr
    | routeToPrimary choice => exact h.routeToPrimary hR hr

theorem fromPrimary_of_reachable (hR : R.Marks len dst) {s : Switch P R}
    (hs : (switch P R).Reachable s) : FromPrimary len dst s := by
  refine hs.invariant ?_ ?_
  · rintro _ rfl
    exact ⟨⟨[], [], rfl, rfl, by simp, Or.inl rfl, fun _ => rfl⟩⟩
  · rintro s t h ⟨r, hr⟩
    cases r with
    | arrive p beat =>
      obtain rfl := Option.some.inj hr
      exact h.arrive p beat
    | primArrive beat =>
      obtain rfl := Option.some.inj hr
      exact h.primArrive beat
    | routeFromPrimary => exact h.routeFromPrimary hR hr
    | routeToPrimary choice => exact h.routeToPrimary hr

/-- What came to the primary port can be routed, whatever it is. -/
theorem exists_drained (s : Switch P R) :
    ∃ t, Relation.ReflTransGen (switch P R).step s t ∧ t.primSinkPort = [] ∧
      t.primArrived = s.primArrived := by
  obtain ⟨n, hn⟩ : ∃ n, s.primSinkPort.length = n := ⟨_, rfl⟩
  induction n generalizing s with
  | zero => exact ⟨s, .refl, List.length_eq_zero_iff.mp hn, rfl⟩
  | succ n ih =>
    obtain ⟨beat, rest, hq⟩ := List.exists_cons_of_length_eq_add_one hn
    obtain ⟨t, ht, hrest, harrived⟩ : ∃ t, s.routeFromPrimary = some t ∧ t.primSinkPort = rest ∧
        t.primArrived = s.primArrived := by
      rw [Switch.routeFromPrimary, hq]
      exact ⟨_, rfl, rfl, rfl⟩
    obtain ⟨u, hu, hempty, harrived'⟩ := ih t (by rw [hrest]; rw [hq] at hn; simpa using hn)
    exact ⟨u, .head ⟨.routeFromPrimary, ht⟩ hu, hempty, harrived'.trans harrived⟩

/-! ### The order of the messages of a port -/

/-- Whether a message is from a port: all its beats are. -/
def isFrom (p : Port P) (m : List (Port P × β)) : Bool :=
  match m with
  | [] => false
  | h :: _ => h.1 == p

theorem fromPort_append (p : Port P) (l l' : List (Port P × β)) :
    fromPort p (l ++ l') = fromPort p l ++ fromPort p l' := by
  rw [fromPort, List.filter_append, List.map_append, fromPort, fromPort]

/-- All of a message is from the port of its first beat. -/
theorem fromPort_message {p : Port P} {h : Port P × β} {payload : List (Port P × β)}
    (hsame : ∀ x ∈ payload, samePort h x) :
    fromPort p (h :: payload) =
      (if isFrom p (h :: payload) then h :: payload else []).map Prod.snd := by
  rw [fromPort, isFrom]
  by_cases hp : h.1 = p
  · rw [if_pos (by simpa using hp), List.filter_eq_self.mpr]
    intro x hx
    rcases List.mem_cons.mp hx with rfl | hx
    · simpa using hp
    · simpa using (hsame x hx).trans hp
  · rw [if_neg (by simpa using hp), List.filter_eq_nil_iff.mpr]
    intro x hx
    rcases List.mem_cons.mp hx with rfl | hx
    · simpa using hp
    · simpa using fun hxp => hp ((hsame x hx).symm.trans hxp)

theorem fromPort_flatten (p : Port P) {ms : List (List (Port P × β))}
    (hms : ∀ m ∈ ms, IsMessage (portLen len) anyHead samePort m) :
    fromPort p ms.flatten = (ms.filter (isFrom p)).flatten.map Prod.snd := by
  induction ms with
  | nil => rfl
  | cons m ms ih =>
    obtain ⟨h, payload, rfl, _, _, hsame⟩ := hms m (by simp)
    rw [List.flatten_cons, fromPort_append, ih fun m hm => hms m (List.mem_cons_of_mem _ hm),
      fromPort_message hsame, List.filter_cons]
    by_cases hfrom : isFrom p (h :: payload) = true
    · simp [hfrom]
    · simp [hfrom]

/-! ### Whole messages -/

/-- Whole messages in both directions. -/
structure Switched (len : β → ℕ) (dst : β → BitVec 8) (s : Switch P R) : Prop where
  /-- The primary port has sent whole messages, each of one port, and the beginning of one more.
  Those of a port are what came to it, in order, up to what is still in its queue. -/
  toPrimary : ∃ (ms : List (List (Port P × β))) (last : List (Port P × β)),
    s.primSourcePort = ms.flatten ++ last ∧
    (∀ m ∈ ms, IsMessage (portLen len) anyHead samePort m) ∧
    (last = [] ∨ ∃ h payload, last = h :: payload ∧ payload.length < len h.2 ∧
      ∀ x ∈ payload, samePort h x) ∧
    ∀ p, s.arrived p = ((ms.filter (isFrom p)).flatten ++
      if isFrom p last then last else []).map Prod.snd ++ s.sinkPorts p
  /-- What came to the primary port is whole messages, the beginning of one more, and what is still
  in its queue. Every port has sent the messages that are for it, in order. -/
  fromPrimary : ∃ (ms : List (List β)) (last : List β),
    s.primArrived = ms.flatten ++ last ++ s.primSinkPort ∧
    (∀ m ∈ ms, IsMessage len (fun _ => True) (fun _ _ => True) m) ∧
    (last = [] ∨ ∃ h payload, last = h :: payload ∧ payload.length < len h) ∧
    ∀ p, s.sourcePorts p =
      (ms.filter (isFor P dst p)).flatten ++ if isFor P dst p last then last else []

theorem ToPrimary.switched {s : Switch P R} (h : ToPrimary len s) :
    ∃ (ms : List (List (Port P × β))) (last : List (Port P × β)),
      s.primSourcePort = ms.flatten ++ last ∧
      (∀ m ∈ ms, IsMessage (portLen len) anyHead samePort m) ∧
      (last = [] ∨ ∃ h payload, last = h :: payload ∧ payload.length < len h.2 ∧
        ∀ x ∈ payload, samePort h x) ∧
      ∀ p, s.arrived p = ((ms.filter (isFrom p)).flatten ++
        if isFrom p last then last else []).map Prod.snd ++ s.sinkPorts p := by
  have hlocked := h.locked
  cases hcur : s.curSink with
  | none =>
    rw [hcur] at hlocked
    obtain ⟨ms, hms, hsent⟩ := hlocked
    refine ⟨ms, [], by rw [List.append_nil, hsent], hms, Or.inl rfl, fun p => ?_⟩
    rw [← h.conserved p, ← hsent, fromPort_flatten p hms, isFrom]
    simp
  | some q =>
    rw [hcur] at hlocked
    obtain ⟨head, payload, _, _, ⟨ms, hms, rfl⟩, hsent, _, hlen, hsame⟩ := hlocked
    refine ⟨ms, head :: payload, hsent, hms, Or.inr ⟨head, payload, rfl, hlen, hsame⟩,
      fun p => ?_⟩
    rw [← h.conserved p, hsent, fromPort_append, fromPort_flatten p hms, fromPort_message hsame,
      List.map_append]

/-- A follower that counts the beats still to come. -/
def counting (len : β → ℕ) (dst : β → BitVec 8) : MsgRoute β where
  σ := ℕ
  init := 0
  firstBeat r _ := r == 0
  lastBeat r b := remaining len r [b] == 0
  dst _ b := dst b
  advance r b := remaining len r [b]

theorem counting_after (l : List β) : (counting len dst).after l = remaining len 0 l := by
  induction l using List.reverseRecOn with
  | nil => rfl
  | append_singleton l b ih =>
    rw [MsgRoute.after_concat, ih, Messages.remaining_append]
    rfl

theorem counting_marks : (counting len dst).Marks len dst where
  firstBeat l b := by
    rw [counting_after]
    rfl
  lastBeat l b := by
    rw [counting_after, Messages.remaining_append]
    rfl
  dst l b _ := rfl

/-- Three ports. -/
def threePorts : Params where
  nPorts := 3
  nPorts_pos := Nat.succ_pos 2
  nPorts_lt := Nat.lt_of_sub_pos (Nat.succ_pos 252)

/-- A follower of messages of one beat, which is the destination. -/
abbrev oneBeat : MsgRoute (BitVec 8) := counting (fun _ => 0) id

end SimpleSwitch

end PciExpress

end LeapPlatforms
