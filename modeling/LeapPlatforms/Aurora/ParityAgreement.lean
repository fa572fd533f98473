import LeapPlatforms.Foundation.FifoLink
import LeapPlatforms.Aurora.GroupedParity
import LeapPlatforms.Aurora.AggregateCrc

/-!
# Running checksums without errors on the link

Two endpoints of `aurora-reliable-aggregate-crc` over links that deliver every flit as it was sent.
Headers, data flits and acknowledgements come in whatever order the rules of the sender allow, with
timeouts and retransmissions among them. The receiver finds every flit right, and after each of them
it is at the place where the sender was when it had sent it. Nothing is assumed of the checksum
here: no check is taken to fail, or to pass, for any reason but its value.

## Main definitions

* `Observed` — an endpoint with a history of the places of the sender and the verdicts of the
  receiver
* `errorFree` — the machine on a link without errors
* `InStep` — one direction between two endpoints

## Main results

* `places_rule` — what a rule does to the places
* `parity_agreement`
-/

namespace LeapPlatforms

namespace Aurora

namespace AggregateCrc

open LossyLink (Flit)
open FifoLink (Side Duplex Move)
open Grouped (Core Raw Place Places SamePlaces Sending Leads)

variable {P : Params}

/-! ### What a rule does to the places -/

variable {c c' : Core P.format} {e e' : Endpoint P} {x : Flit (Raw P.format)}
  {out : Option (Raw P.format)}

/-- A payload flit moves the receiver's place, whatever becomes of it. -/
theorem placeRX_rxPayload (hpay : Grouped.ctrlOf x.raw = Grouped.payload)
    (h : rxPayload x c = some c') :
    c'.placeRX = c.placeRX.follow x.raw ∧ c'.placeTX = c.placeTX ∧
      c'.serdesInfifo = c.serdesInfifo := by
  have hnext : ∀ c₁ : Core P.format, SamePlaces c c₁ →
      (c₁.nextPosition.nextFragment x).placeRX = c.placeRX.follow x.raw := by
    intro c₁ hsame
    rw [Grouped.placeRX_nextFragment hpay]
    change c₁.placeRX.follow x.raw = _
    rw [hsame.placeRX]
  have hself := hnext c ⟨rfl, rfl, rfl⟩
  rw [rxPayload] at h
  split at h
  · have hsame := Grouped.samePlaces_acceptFragment h
    exact ⟨hsame.placeRX.trans hself, hsame.placeTX, hsame.serdesInfifo⟩
  · split at h
    · obtain rfl := Option.some.inj h
      have hback : SamePlaces c (if c.fresh then rollBack c else c) := by
        cases c.fresh with
        | true => exact ⟨rfl, rfl, rfl⟩
        | false => exact ⟨rfl, rfl, rfl⟩
      exact ⟨hnext _ hback, hback.placeTX, hback.serdesInfifo⟩
    · obtain rfl := Option.some.inj h
      exact ⟨hself, rfl, rfl⟩

theorem placeRX_rxAck (h : c.rxAck x = some c') : SamePlaces c c' := by
  rw [Core.rxAck] at h
  split at h
  · split at h
    · obtain rfl := Option.some.inj h
      exact ⟨rfl, rfl, rfl⟩
    · cases h
  · obtain rfl := Option.some.inj h
    exact ⟨rfl, rfl, rfl⟩

/-- The receive rule takes one flit and follows it. -/
theorem places_rxDemarsh (h : rxDemarsh c = some c') : Places c c' none c.serdesInfifo.head? := by
  rw [rxDemarsh] at h
  split at h
  · cases h
  · next x rest hx =>
    rw [hx, List.head?_cons]
    dsimp only at h
    split at h
    · next hpay =>
      obtain ⟨hrx, htx, hin⟩ := placeRX_rxPayload hpay h
      exact .examine hx hin htx hrx
    · next hpay =>
      split at h
      · next hhead =>
        have hkind : Grouped.kind x.raw = .header := by simp [Grouped.kind, hpay, hhead]
        obtain rfl := Option.some.inj h
        refine .examine hx ?_ ?_ (Grouped.placeRX_newFrame hkind c.placeRX)
        · change (if _ then rollBack _ else _ : Core P.format).serdesInfifo = rest
          split <;> rfl
        · change (if _ then rollBack _ else _ : Core P.format).placeTX = c.placeTX
          split <;> rfl
      · next hhead =>
        have hkind : Grouped.kind x.raw = .control := by simp [Grouped.kind, hpay, hhead]
        have hfollow : c.placeRX.follow x.raw = c.placeRX := by rw [Place.follow, hkind]
        have hsame : SamePlaces { c with serdesInfifo := rest } c' := by
          split at h
          · exact placeRX_rxAck h
          · obtain rfl := Option.some.inj h
            exact ⟨rfl, rfl, rfl⟩
        exact .examine hx hsame.serdesInfifo hsame.placeTX (hsame.placeRX.trans hfollow.symm)

/-- **Every rule** does to the places what a rule may do. -/
theorem places_rule (hs : Sending e.core) (r : Rule P) (h : rule r e = some (e', out)) :
    Places e.core e'.core out ((machine P).examines r e) := by
  cases r with
  | shared r => exact Grouped.places_shared hs r (withCore_cases h)
  | tickCC =>
    obtain ⟨e₁, htick, heq⟩ := Option.map_eq_some_iff.mp h
    obtain ⟨rfl, rfl⟩ := Prod.mk.inj heq
    rw [Endpoint.tickCC] at htick
    split at htick
    · obtain rfl := Option.some.inj htick
      exact .quiet ⟨rfl, rfl, rfl⟩
    · cases htick
  | txHeader =>
    obtain ⟨f, rfl, ht⟩ := Grouped.send_cases (withCore_cases h)
    rw [Endpoint.txHeader] at ht
    split at ht
    · exact Grouped.places_txHeader ht
    · cases ht
  | txACK =>
    obtain ⟨f, rfl, ht⟩ := Grouped.send_cases (withCore_cases h)
    rw [Endpoint.txACK] at ht
    split at ht
    · exact Grouped.places_txACK ht
    · cases ht
  | rxDemarsh =>
    obtain ⟨c, ht, heq⟩ := Option.map_eq_some_iff.mp (withCore_cases h)
    obtain ⟨rfl, rfl⟩ := Prod.mk.inj heq
    exact places_rxDemarsh ht

/-! ### The link without errors -/

variable (P) in
/-- An endpoint that is observed. -/
structure Observed where
  /-- The endpoint. -/
  ep : Endpoint P
  /-- History: the place of the sender after each flit that it sent. -/
  places : List Place
  /-- History: of each flit examined, whether it was found right. -/
  verdicts : List Bool

/-- A rule of an observed endpoint. -/
def Observed.rule (r : Rule P) (o : Observed P) : Option (Observed P × Option (Raw P.format)) :=
  (AggregateCrc.rule r o.ep).map fun (ep, out) =>
    ({ ep := ep
       places := o.places ++ (out.map fun _ => ep.core.placeTX).toList
       verdicts := o.verdicts ++ (((machine P).examines r o.ep).map o.ep.core.notCorrupt).toList },
      out)

/-- A flit arrives as it was sent, and the physical layer reports no error. -/
def Observed.intake (raw : Raw P.format) (o : Observed P) : Option (Observed P) :=
  ((machine P).intake ⟨raw, false, raw, 0⟩ o.ep).map fun ep => { o with ep := ep }

variable (P) in
/-- The driver on a link without errors. -/
def errorFree : FifoLink.Machine (Observed P) (Rule P) (Raw P.format) where
  rule := Observed.rule
  intake := Observed.intake

variable (P) in
/-- An observed endpoint after reset, and nothing sent. -/
def observedReset : Side (Observed P) (Raw P.format) := ⟨⟨.reset P, [], []⟩, []⟩

variable (P) in
/-- Two endpoints over links without errors. -/
def errorFreeSystem : TransitionSystem (Duplex (Observed P) (Raw P.format)) :=
  FifoLink.system (errorFree P) fun d => d = ⟨observedReset P, observedReset P⟩

/-- The place after so many flits. -/
def placeAfter (places : List Place) (n : ℕ) : Place := (places.take n).getLastD ⟨0, 0⟩

/-! ### The two ends in step -/

/-- One direction, from `s` to `p`: what was examined brought the receiver to the place where the
sender was, and what is under way is right and leads to the place where it is. -/
structure Between (s p : Side (Observed P) (Raw P.format)) (seen ahead : List Place) : Prop where
  /-- The flits sent are those examined and those under way. -/
  places : s.ep.places = seen ++ ahead
  length : seen.length = p.ep.verdicts.length
  /-- The receiver's place. -/
  receiver : p.ep.ep.core.placeRX = seen.getLastD ⟨0, 0⟩
  /-- The sender's place. -/
  sender : s.ep.ep.core.placeTX = ahead.getLastD p.ep.ep.core.placeRX
  /-- The flits under way. -/
  follows : Leads p.ep.ep.core.placeRX
    (p.ep.ep.core.serdesInfifo.map (fun y => y.raw) ++ s.link) ahead

/-- One direction of a link without errors, from `s` to `p`. -/
structure InStep (s p : Side (Observed P) (Raw P.format)) : Prop where
  /-- The sender. -/
  sending : Sending s.ep.ep.core
  /-- The physical layer reported no error. -/
  softErr : ∀ y ∈ p.ep.ep.core.serdesInfifo, y.softErr = false
  /-- Every flit was found right. -/
  verdicts : ∀ v ∈ p.ep.verdicts, v = true
  /-- The places. -/
  between : ∃ seen ahead, Between s p seen ahead

variable {s p s' p' : Side (Observed P) (Raw P.format)} {seen ahead : List Place}

theorem inStep_reset : InStep (observedReset P) (observedReset P) where
  sending := Grouped.sending_reset
  softErr := by rintro y ⟨⟩
  verdicts := by rintro v ⟨⟩
  between := ⟨[], [], rfl, rfl, rfl, rfl, .nil _⟩

theorem observed_rule_cases {r : Rule P} {o o' : Observed P} (h : o.rule r = some (o', out)) :
    ∃ ep, AggregateCrc.rule r o.ep = some (ep, out) ∧
      o' = { ep := ep
             places := o.places ++ (out.map fun _ => ep.core.placeTX).toList
             verdicts := o.verdicts ++
               (((machine P).examines r o.ep).map o.ep.core.notCorrupt).toList } := by
  obtain ⟨⟨ep, f⟩, hr, heq⟩ := Option.map_eq_some_iff.mp h
  obtain ⟨rfl, rfl⟩ := Prod.mk.inj heq
  exact ⟨ep, hr, rfl⟩

theorem observed_intake_cases {raw : Raw P.format} {o o' : Observed P}
    (h : o.intake raw = some o') :
    ∃ core, o.ep.core.rxIntake ⟨raw, false, raw, 0⟩ = some core ∧
      o' = { o with ep := { o.ep with core := core } } := by
  obtain ⟨ep, hep, rfl⟩ := Option.map_eq_some_iff.mp h
  obtain ⟨core, hcore, rfl⟩ := Option.map_eq_some_iff.mp hep
  exact ⟨core, hcore, rfl⟩

/-- The sending endpoint moves. -/
theorem InStep.send (h : InStep s p) (hmove : Move (errorFree P) s p s' p') : InStep s' p' := by
  obtain ⟨hsending, hsoft, hverdicts, seen, ahead, hb⟩ := h
  cases hmove with
  | rule r o out hr =>
    obtain ⟨ep, hep, rfl⟩ := observed_rule_cases hr
    refine ⟨hsending.step (effect_rule r hep), hsoft, hverdicts, ?_⟩
    have hplaces := places_rule hsending r hep
    generalize hex : (machine P).examines r s.ep.ep = ex at hplaces
    cases hplaces with
    | quiet hsame =>
      exact ⟨seen, ahead, by simpa using hb.places, hb.length, hb.receiver,
        hsame.placeTX.trans hb.sender, by simpa using hb.follows⟩
    | examine _ _ htx _ =>
      exact ⟨seen, ahead, by simpa using hb.places, hb.length, hb.receiver, htx.trans hb.sender,
        by simpa using hb.follows⟩
    | @send f hclean hfollow _ _ =>
      rw [hb.sender] at hclean hfollow
      refine ⟨seen, ahead ++ [ep.core.placeTX], ?_, hb.length, hb.receiver,
        List.getLastD_concat.symm, ?_⟩
      · change s.ep.places ++ [ep.core.placeTX] = _
        rw [hb.places, List.append_assoc]
      · change Leads _ (_ ++ (s.link ++ [f])) _
        rw [← List.append_assoc, hfollow]
        exact hb.follows.snoc hclean
  | intake raw rest o hlink hin =>
    obtain ⟨core, hcore, rfl⟩ := observed_intake_cases hin
    obtain rfl := Core.rxIntake_cases hcore
    exact ⟨⟨hsending.books, ⟨hsending.supplies.stream, hsending.supplies.fragment⟩,
      hsending.committed⟩, hsoft, hverdicts, seen, ahead, hb.places, hb.length, hb.receiver,
      hb.sender, hb.follows⟩

/-- The receiving endpoint moves. -/
theorem InStep.recv (h : InStep s p) (hp : Sending p.ep.ep.core)
    (hmove : Move (errorFree P) p s p' s') : InStep s' p' := by
  obtain ⟨hsending, hsoft, hverdicts, seen, ahead, hb⟩ := h
  cases hmove with
  | rule r o out hr =>
    obtain ⟨ep, hep, rfl⟩ := observed_rule_cases hr
    have hplaces := places_rule hp r hep
    generalize hex : (machine P).examines r p.ep.ep = ex at hplaces
    cases hplaces with
    | quiet hsame =>
      refine ⟨hsending, ?_, by simpa using hverdicts, seen, ahead, hb.places,
        by simpa using hb.length, hsame.placeRX.trans hb.receiver, ?_, ?_⟩
      · intro y hy
        rw [hsame.serdesInfifo] at hy
        exact hsoft y hy
      · rw [hb.sender, hsame.placeRX]
      · rw [hsame.placeRX, hsame.serdesInfifo]
        exact hb.follows
    | send _ _ hrx hin =>
      refine ⟨hsending, ?_, by simpa using hverdicts, seen, ahead, hb.places,
        by simpa using hb.length, hrx.trans hb.receiver, ?_, ?_⟩
      · intro y hy
        rw [hin] at hy
        exact hsoft y hy
      · rw [hb.sender, hrx]
      · rw [hrx, hin]
        exact hb.follows
    | @examine x rest hx hin _ hrx =>
      have hfollows := hb.follows
      rw [hx] at hfollows hsoft
      have hclean := Grouped.notCorrupt_eq_clean (e := p.ep.ep.core)
        (hsoft x (List.mem_cons_self ..))
      cases hfollows with
      | @cons _ _ _ ahead hright hrest =>
        rw [hright] at hclean
        refine ⟨hsending, ?_, ?_, seen ++ [p.ep.ep.core.placeRX.follow x.raw], ahead, ?_, ?_, ?_,
          ?_, ?_⟩
        · intro y hy
          rw [hin] at hy
          exact hsoft y (List.mem_cons_of_mem _ hy)
        · intro v hv
          rw [Option.map_some, Option.toList_some, List.mem_append, List.mem_singleton] at hv
          rcases hv with hv | rfl
          · exact hverdicts v hv
          · exact hclean
        · rw [hb.places, List.append_assoc]
          rfl
        · simpa using hb.length
        · rw [hrx, List.getLastD_concat]
        · rw [hb.sender, hrx, List.getLastD_cons]
        · rw [hrx, hin]
          exact hrest
  | intake raw rest o hlink hin =>
    obtain ⟨core, hcore, rfl⟩ := observed_intake_cases hin
    obtain rfl := Core.rxIntake_cases hcore
    refine ⟨hsending, ?_, hverdicts, seen, ahead, hb.places, hb.length, hb.receiver, hb.sender, ?_⟩
    · intro y hy
      rcases List.mem_append.mp hy with hy | hy
      · exact hsoft y hy
      · rw [List.mem_singleton.mp hy]
    · have hfollows := hb.follows
      rw [hlink] at hfollows
      change Leads p.ep.ep.core.placeRX
        (List.map (fun y : Flit (Raw P.format) => y.raw)
          (p.ep.ep.core.serdesInfifo ++ [⟨raw, false, raw, 0⟩]) ++ rest) ahead
      rw [List.map_append, List.append_assoc]
      exact hfollows

/-- Both directions are in step, in every reachable state. -/
theorem inStep_of_reachable {d : Duplex (Observed P) (Raw P.format)}
    (h : (errorFreeSystem P).Reachable d) : InStep d.a d.b ∧ InStep d.b d.a := by
  refine FifoLink.directed (D := InStep) ?_ ?_ ?_ h
  · rintro _ rfl
    exact ⟨inStep_reset, inStep_reset⟩
  · intro s p s' p' hsp _ hmove
    exact hsp.send hmove
  · intro s p s' p' hsp hps hmove
    exact hsp.recv hps.sending hmove

/-! ### What the receiver finds -/

/-- What the receiver of one direction, from `s` to `p`, made of the flits so far. -/
structure Agreement (s p : Side (Observed P) (Raw P.format)) : Prop where
  /-- Every flit that was examined was found right. -/
  examined : ∀ v ∈ p.ep.verdicts, v = true
  /-- So will be the next. -/
  next : ∀ y ∈ p.ep.ep.core.serdesInfifo.head?, p.ep.ep.core.notCorrupt y = true
  /-- It was sent. -/
  sent : p.ep.verdicts.length ≤ s.ep.places.length
  /-- The position in the group and the running checksum are those that the sender had when it had
  sent that many flits. -/
  place : p.ep.ep.core.placeRX = placeAfter s.ep.places p.ep.verdicts.length

theorem InStep.agreement (h : InStep s p) : Agreement s p := by
  obtain ⟨seen, ahead, hb⟩ := h.between
  refine ⟨h.verdicts, ?_, ?_, ?_⟩
  · intro y hy
    obtain ⟨rest, hrest⟩ := List.head?_eq_some_iff.mp hy
    rw [Grouped.notCorrupt_eq_clean (h.softErr y (by simp [hrest]))]
    have hleads := hb.follows
    rw [hrest] at hleads
    cases hleads with
    | cons hright _ => exact hright
  · rw [hb.places, List.length_append, hb.length]
    exact Nat.le_add_right _ _
  · rw [placeAfter, hb.places, ← hb.length, List.take_left]
    exact hb.receiver

/-- **Running-checksum agreement.** In every reachable state of two endpoints over links without
errors, each receiver found every flit right, and its position in the group and its running checksum
are those that the sender had when it had sent the flits that the receiver has examined. -/
theorem parity_agreement (P : Params) (d : Duplex (Observed P) (Raw P.format))
    (h : (errorFreeSystem P).Reachable d) : Agreement d.a d.b ∧ Agreement d.b d.a :=
  have hinStep := inStep_of_reachable h
  ⟨hinStep.1.agreement, hinStep.2.agreement⟩

/-- The first endpoint waited for clock compensation. -/
def waited (n : ℕ) : Duplex (Observed sampleParams) (Raw sampleParams.format) :=
  let reset := observedReset sampleParams
  ⟨{ reset with ep := { reset.ep with ep := { reset.ep.ep with ccCycles := n } } }, reset⟩

theorem waited_reachable {n : ℕ} (hn : n ≤ 2 ^ 18 - 1) :
    (errorFreeSystem sampleParams).Reachable (waited n) := by
  induction hn using Nat.decreasingInduction with
  | self => exact .init rfl
  | of_succ n hn ih =>
    have hturn : FifoLink.run (errorFree sampleParams) [(true, .rule .tickCC)] (waited (n + 1)) =
        some (waited n) := by
      simp [FifoLink.run, Side.turn, errorFree, Observed.rule, machine, rule, Endpoint.tickCC, waited,
        observedReset]
    exact FifoLink.run_reachable ih hturn

/-- A header and the two data flits of a word. -/
def wordTurns : List (Bool × FifoLink.Turn (Rule sampleParams)) :=
  [(true, .rule (.shared (.write 5))), (true, .rule (.shared .crossDomain)),
    (true, .rule (.shared .sequenceStuffer)), (true, .rule .txHeader), (false, .intake),
    (false, .rule .rxDemarsh)] ++
  (List.replicate 2 [(true, .rule (.shared .passRewind)), (true, .rule (.shared .txSend)),
    (false, .intake), (false, .rule .rxDemarsh)]).flatten

theorem parity_agreement_word :
    ∃ d : Duplex (Observed sampleParams) (Raw sampleParams.format),
      (errorFreeSystem sampleParams).Reachable d ∧ d.b.ep.verdicts = [true, true, true] ∧
        d.b.ep.ep.core.placeRX = placeAfter d.a.ep.places 3 ∧ d.b.ep.ep.core.parityRX ≠ 0 := by
  have hrun : (FifoLink.run (errorFree sampleParams) wordTurns (waited 0)).map
      (fun d => (d.b.ep.verdicts, d.b.ep.ep.core.parityRX != 0)) =
        some ([true, true, true], true) := by
    decide +kernel
  obtain ⟨d, hd, hend⟩ := Option.map_eq_some_iff.mp hrun
  obtain ⟨hverdicts, hparity⟩ := Prod.mk.inj hend
  have hreach := FifoLink.run_reachable (waited_reachable (Nat.zero_le _)) hd
  have hplace := (parity_agreement sampleParams d hreach).1.place
  rw [hverdicts] at hplace
  exact ⟨d, hreach, hverdicts, hplace, by simpa using hparity⟩

end AggregateCrc

end Aurora

end LeapPlatforms
