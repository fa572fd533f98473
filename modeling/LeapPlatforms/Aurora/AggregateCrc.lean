import LeapPlatforms.Aurora.GroupedLink

/-!
# The driver `aurora-reliable-aggregate-crc`

The constants and the receive rule of the driver, and in-order exactly-once delivery. The receiver
hands data flits to its demarshaller before their group's checksum is known. It takes them back in
two places: when a payload flit turns out wrong, and when a header cuts the group short. In both
the frame position loses the flits of the group, and the demarshaller is cleared.

Clock compensation and the clock crossings of the user's queues happen at any time: `tickCC` may
fire whenever the count allows, and a queue is a list.

## Main definitions

* `AggregateCrc.Params`, `Params.format`
* `rxPayload`, `rxHeader`, `rxDemarsh` — the receive rule
* `Endpoint`, `Rule`, `machine`, `driver`

## Main results

* `grouped_delivery` — in-order exactly-once delivery
-/

namespace LeapPlatforms

namespace Aurora

namespace AggregateCrc

open LossyLink (Flit Kind Machine Side Duplex)
open Grouped (Core Format Raw SharedRule Effect Examines Driver)

/-- What an instance of the module is built with. -/
structure Params where
  /-- `control_data_size`. -/
  controlDataSize : ℕ
  /-- A sequence number fits a control flit. -/
  controlDataSize_ge : 3 ≤ controlDataSize
  /-- `interface_words`: data flits in a word. -/
  interfaceWords : ℕ
  /-- A word is not empty. -/
  interfaceWords_pos : 0 < interfaceWords
  /-- `AURORA_INTERFACE_FREQ`. -/
  interfaceFreq : ℕ

/-- The tag of a frame header. -/
def header : BitVec 2 := 0b10

/-- The tag of an acknowledgement. -/
def ack : BitVec 2 := 0b11

/-- The driver's constants. -/
def Params.format (P : Params) : Format where
  tagExtra := 1
  header := header
  ack := ack
  header_msb := rfl
  ack_msb := rfl
  ack_ne_header := by decide
  controlDataSize := P.controlDataSize
  controlDataSize_ge := P.controlDataSize_ge
  interfaceWords := P.interfaceWords
  interfaceWords_pos := P.interfaceWords_pos
  frameWords := 32
  frameWords_pos := Nat.succ_pos _
  ackCapacity := 4
  timeoutThreshold := 1000 * P.interfaceFreq

variable {P : Params}

/-! ### The receive rule -/

/-- The group that is open is given up: `demarshaller.clear` and the frame position without the
group's flits. -/
def rollBack (e : Core P.format) : Core P.format :=
  { e with
    demarshaller := if e.fragmentNumberRX ≠ 0 then [] else e.demarshaller
    framePositionRX := e.rollBackPosition }

/-- `rule rxDemarsh` on a payload flit. -/
def rxPayload (x : Flit (Raw P.format)) (e : Core P.format) : Option (Core P.format) :=
  if e.notCorrupt x && !e.frameErrorRX then
    Core.acceptFragment (Grouped.dataOf x.raw) e (e.nextPosition.nextFragment x)
  else if !e.notCorrupt x && !e.frameErrorRX then
    let e₁ := if e.fresh then rollBack e else e
    some { e₁.nextPosition.nextFragment x with frameErrorRX := true }
  else some (e.nextPosition.nextFragment x)

/-- `rule rxDemarsh` on a header. -/
def rxHeader (x : Flit (Raw P.format)) (e : Core P.format) : Core P.format :=
  let frameErrorNext :=
    futureFrame e.sequenceNumberRX (Grouped.sequenceOf x.raw) || !e.notCorrupt x
  let e₁ := if e.fresh && !e.frameErrorRX then rollBack e else e
  e₁.newFrame x frameErrorNext

/-- `rule rxDemarsh`. -/
def rxDemarsh (e : Core P.format) : Option (Core P.format) :=
  match e.serdesInfifo with
  | [] => none
  | x :: rest =>
    let e' := { e with serdesInfifo := rest }
    if Grouped.ctrlOf x.raw = Grouped.payload then rxPayload x e'
    else if Grouped.tagOf x.raw = P.format.header then some (rxHeader x e')
    else if Grouped.tagOf x.raw = P.format.ack then e'.rxAck x
    else some e'

/-! ### The endpoint -/

variable (P) in
/-- The registers and queues of the module. -/
structure Endpoint where
  /-- Those that both drivers with grouped checksums have. -/
  core : Core P.format
  /-- `ccCycles`: clock compensation cycles to wait for, in 18 bits. -/
  ccCycles : ℕ

variable (P) in
/-- The rules of the module, and the methods of its user. -/
inductive Rule
  /-- A rule of the shared registers. -/
  | shared (r : SharedRule P.format)
  | tickCC
  | txHeader
  | txACK
  | rxDemarsh

namespace Endpoint

variable (P) in
/-- The endpoint after reset. -/
def reset : Endpoint P := { core := .reset P.format, ccCycles := 2 ^ 18 - 1 }

/-- The endpoint after a rule that works on the shared registers. -/
def withCore (e : Endpoint P) (r : Option (Core P.format × Option (Raw P.format))) :
    Option (Endpoint P × Option (Raw P.format)) :=
  r.map fun (c, out) => ({ e with core := c }, out)

/-- `rule tickCC`. -/
def tickCC (e : Endpoint P) : Option (Endpoint P) :=
  if 0 < e.ccCycles then some { e with ccCycles := e.ccCycles - 1 } else none

/-- `rule txHeader`. -/
def txHeader (e : Endpoint P) : Option (Core P.format × Raw P.format) :=
  if e.ccCycles = 0 then e.core.txHeader else none

/-- `rule txACK`. -/
def txACK (e : Endpoint P) : Option (Core P.format × Raw P.format) :=
  if e.ccCycles = 0 then e.core.txACK else none

end Endpoint

/-- A step of the endpoint: the new state, and the flit sent if one is. -/
def rule : Rule P → Endpoint P → Option (Endpoint P × Option (Raw P.format))
  | .shared r, e => e.withCore (r.rule e.core)
  | .tickCC, e => e.tickCC.map (·, none)
  | .txHeader, e => e.withCore (Core.send e.txHeader)
  | .txACK, e => e.withCore (Core.send e.txACK)
  | .rxDemarsh, e => e.withCore (Core.quiet (rxDemarsh e.core))

variable (P) in
/-- The driver as a machine on a link. -/
def machine : Machine (Endpoint P) (Rule P) (Raw P.format) where
  reset := .reset P
  rule := rule
  intake x e := (e.core.rxIntake x).map fun c => { e with core := c }
  kind := Grouped.kind
  examines
    | .rxDemarsh, e => e.core.serdesInfifo.head?
    | _, _ => none
  passes e := e.core.passes

/-! ### What the receive rule does -/

variable {c c' : Core P.format} {x : Flit (Raw P.format)}

theorem rolledBack_of_fresh (hf : c.fresh = true) : Grouped.RolledBack c (rollBack c) where
  sequenceNumberRX := rfl
  enqueued := rfl
  ackSequenceNumberTX := rfl
  new _ := ⟨Or.inl rfl, by by_cases h : c.fragmentNumberRX = 0 <;> simp [rollBack, h]⟩
  old hold := by
    rw [hf] at hold
    cases hold

theorem rolledBack_of_stale (hf : c.fresh = false) : Grouped.RolledBack c c where
  sequenceNumberRX := rfl
  enqueued := rfl
  ackSequenceNumberTX := rfl
  new hnew := by
    rw [hf] at hnew
    cases hnew
  old _ := ⟨rfl, rfl⟩

/-- Either way the group is given up. -/
theorem rolledBack_ite : Grouped.RolledBack c (if c.fresh then rollBack c else c) := by
  cases hf : c.fresh with
  | true => exact rolledBack_of_fresh hf
  | false => exact rolledBack_of_stale hf

theorem sameTransmit_rollBack (b : Bool) :
    Core.SameTransmit c (if b then rollBack c else c) := by
  cases b <;> constructor <;> rfl

/-- A payload flit is held, completes its group, fails it, or is skipped. -/
theorem examines_rxPayload (hkind : Grouped.kind x.raw = .payload)
    (h : rxPayload x c = some c') : Examines c x c' := by
  rw [rxPayload] at h
  cases herr : c.frameErrorRX with
  | true =>
    rw [herr, Bool.not_true, Bool.and_false, Bool.and_false, if_neg (by simp),
      if_neg (by simp)] at h
    obtain rfl := Option.some.inj h
    exact .skip herr hkind herr (by constructor <;> rfl) (by constructor <;> rfl)
  | false =>
    cases hok : c.notCorrupt x with
    | true =>
      rw [herr, hok] at h
      obtain ⟨hsame, ha⟩ := Core.acceptFragment_spec h
      cases hend : c.endsGroup with
      | true =>
        exact .complete herr hkind hend (Grouped.passes_of_notCorrupt hkind hend herr hok) ha hsame
      | false => exact .hold herr hkind hend ha hsame
    | false =>
      rw [herr, hok] at h
      obtain rfl := Option.some.inj h
      have hr := rolledBack_ite (c := c)
      have hs := sameTransmit_rollBack (c := c) c.fresh
      exact .fail herr hkind rfl { hr with } { hs with }

theorem examines_rxHeader (hkind : Grouped.kind x.raw = .header) :
    Examines c x (rxHeader x c) := by
  refine .header hkind ?_ (sameTransmit_rollBack _) fun herr => ?_
  · cases herr : c.frameErrorRX with
    | true =>
      rw [Bool.not_true, Bool.and_false]
      exact Or.inr ⟨rfl, by constructor <;> rfl⟩
    | false =>
      rw [Bool.not_false, Bool.and_true]
      exact Or.inl ⟨rfl, rolledBack_ite⟩
  · exact (Bool.or_eq_false_iff.mp herr).1

/-- The receive rule takes one flit and does one of the things a driver may do. -/
theorem effect_rxDemarsh (h : rxDemarsh c = some c') : Effect c c' none c.serdesInfifo.head? := by
  rw [rxDemarsh] at h
  split at h
  · cases h
  · next x rest hx =>
    rw [hx, List.head?_cons]
    refine .examine hx ?_
    dsimp only at h
    split at h
    · next hpay => exact examines_rxPayload (by simp [Grouped.kind, hpay]) h
    · next hpay =>
      split at h
      · next hhead =>
        obtain rfl := Option.some.inj h
        exact examines_rxHeader (by simp [Grouped.kind, hpay, hhead])
      · next hhead =>
        have hkind : Grouped.kind x.raw = .control := by simp [Grouped.kind, hpay, hhead]
        split at h
        · next hack => exact Grouped.examines_rxAck hkind hack h
        · obtain rfl := Option.some.inj h
          exact .ignore hkind

/-! ### The driver -/

variable {e e' : Endpoint P} {out : Option (Raw P.format)}

theorem withCore_cases {r : Option (Core P.format × Option (Raw P.format))}
    (h : e.withCore r = some (e', out)) : r = some (e'.core, out) := by
  obtain ⟨⟨c, f⟩, hc, heq⟩ := Option.map_eq_some_iff.mp h
  obtain ⟨rfl, rfl⟩ := Prod.mk.inj heq
  exact hc

/-- Every rule does one of the things a driver may do. -/
theorem effect_rule (r : Rule P) (h : rule r e = some (e', out)) :
    Effect e.core e'.core out ((machine P).examines r e) := by
  cases r with
  | shared r => exact Grouped.effect_shared r (withCore_cases h)
  | tickCC =>
    obtain ⟨e₁, htick, heq⟩ := Option.map_eq_some_iff.mp h
    obtain ⟨rfl, rfl⟩ := Prod.mk.inj heq
    rw [Endpoint.tickCC] at htick
    split at htick
    · obtain rfl := Option.some.inj htick
      exact .silent Grouped.silent_refl
    · cases htick
  | txHeader =>
    obtain ⟨f, rfl, ht⟩ := Grouped.send_cases (withCore_cases h)
    rw [Endpoint.txHeader] at ht
    split at ht
    · exact .txHeader ht
    · cases ht
  | txACK =>
    obtain ⟨f, rfl, ht⟩ := Grouped.send_cases (withCore_cases h)
    rw [Endpoint.txACK] at ht
    split at ht
    · exact .txACK ht
    · cases ht
  | rxDemarsh =>
    obtain ⟨c, ht, heq⟩ := Option.map_eq_some_iff.mp (withCore_cases h)
    obtain ⟨rfl, rfl⟩ := Prod.mk.inj heq
    exact effect_rxDemarsh ht

variable (P) in
/-- The module is a driver with grouped checksums. -/
def driver : Driver P.format (Endpoint P) (Rule P) where
  machine := machine P
  core := Endpoint.core
  kind_eq := rfl
  passes_eq _ := rfl
  reset := rfl
  intake x e e' h := by
    obtain ⟨c, hc, rfl⟩ := Option.map_eq_some_iff.mp h
    exact Core.rxIntake_cases hc
  effect r _ _ _ h := effect_rule r h

/-! ### What it delivers -/

/-- Words of two data flits of 15 bits. -/
def sampleParams : Params where
  controlDataSize := 6
  controlDataSize_ge := Nat.le_add_right 3 3
  interfaceWords := 2
  interfaceWords_pos := Nat.two_pos
  interfaceFreq := 156

/-- The first endpoint waited for clock compensation. -/
def compensated (n : ℕ) : Duplex (Endpoint sampleParams) (Raw sampleParams.format) :=
  let reset := Duplex.reset (machine sampleParams)
  { reset with a := { reset.a with ep := { reset.a.ep with ccCycles := n } } }

theorem compensated_reachable {n : ℕ} (hn : n ≤ 2 ^ 18 - 1) :
    (LossyLink.system (machine sampleParams)).Reachable (compensated n) := by
  induction hn using Nat.decreasingInduction with
  | self => exact .init rfl
  | of_succ n hn ih =>
    have hturn : LossyLink.run (machine sampleParams) [(true, .rule .tickCC)]
        (compensated (n + 1)) = some (compensated n) := by
      simp [LossyLink.run, Side.turn, machine, rule, Endpoint.tickCC, compensated, Side.fire]
    exact LossyLink.run_reachable ih hturn

/-- One word is given, sent and received. -/
def sampleTurns : List (Bool × LossyLink.Turn (Rule sampleParams) (Raw sampleParams.format)) :=
  [(true, .rule (.shared (.write 5))), (true, .rule (.shared .crossDomain)),
    (true, .rule (.shared .sequenceStuffer)), (true, .rule .txHeader), (false, .intake),
    (false, .rule .rxDemarsh)] ++
  (List.replicate 2 [(true, .rule (.shared .passRewind)), (true, .rule (.shared .txSend)),
    (false, .intake), (false, .rule .rxDemarsh)]).flatten ++ [(false, .rule (.shared .rxDone))]

theorem sample_reachable : ∃ d, (LossyLink.system (machine sampleParams)).Reachable d ∧
    d.b.ep.core.enqueued.length = 1 := by
  have hrun : (LossyLink.run (machine sampleParams) sampleTurns (compensated 0)).map
      (fun d => d.b.ep.core.enqueued.length) = some 1 := by
    decide +kernel
  obtain ⟨d, hd, hlen⟩ := Option.map_eq_some_iff.mp hrun
  exact ⟨d, LossyLink.run_reachable (compensated_reachable (Nat.zero_le _)) hd, hlen⟩

/-- **In-order exactly-once delivery under grouped checksums.** In every reachable state of two
endpoints over links that lose and alter flits, the words that each endpoint put into
`serdesRxfifo` are the beginning of those that the other's user gave. -/
theorem grouped_delivery (P : Params) (d : Duplex (Endpoint P) (Raw P.format))
    (h : (LossyLink.system (machine P)).Reachable d) :
    d.b.ep.core.enqueued <+: d.a.ep.core.given ∧ d.a.ep.core.enqueued <+: d.b.ep.core.given :=
  have hlinked := Driver.linked_of_reachable (D := driver P) h
  ⟨hlinked.1.enqueued_isPrefix, hlinked.2.enqueued_isPrefix⟩

theorem grouped_delivery_sample :
    ∃ d : Duplex (Endpoint sampleParams) (Raw sampleParams.format),
      (LossyLink.system (machine sampleParams)).Reachable d ∧
        d.b.ep.core.enqueued.length = 1 ∧
        d.b.ep.core.enqueued <+: d.a.ep.core.given ∧
        d.a.ep.core.enqueued <+: d.b.ep.core.given := by
  obtain ⟨d, hd, hlen⟩ := sample_reachable
  exact ⟨d, hd, hlen, grouped_delivery sampleParams d hd⟩

end AggregateCrc

end Aurora

end LeapPlatforms
