import LeapPlatforms.Aurora.FlowControlRuns
import LeapPlatforms.Aurora.Handshake
import LeapPlatforms.Foundation.Watch
import Mathlib.Data.List.Induction

/-!
# Counting heartbeats

`aurora-flowcontrol` and `aurora-reliable-handshake` take the handshake for done by the same
registers. A heartbeat is counted if its number is one more than that of the heartbeat before it;
the first one that is counted must come from a partner whose own handshake is not done. The flags
are set by a heartbeat that finds enough of them counted and tells that the partner counted enough.

The count has five bits, and a heartbeat out of sequence leaves it as it is. As long as neither
shows, which is what `Steady` says, the heartbeats counted are the last ones received, without a
gap.

## Main definitions

* `Heartbeat`, `Detector`, `Detector.hear` — the registers that both modules have
* `Tally` — heartbeats counted in all, and in the run that is not interrupted
* `Steady`, `Reaches`, `Detects`
* `FlowControl.listening`, `Handshake.listening` — either module, any flits received

## Main results

* `tally_run` — what a run is
* `heard_eq` — the registers after any heartbeats
* `handshake_detection`
-/

namespace LeapPlatforms

namespace Aurora

/-! ### Heartbeats -/

/-- What a heartbeat carries. -/
structure Heartbeat where
  /-- Its number: `heartbeatRXNew`. -/
  number : BitVec 5
  /-- How many the partner counted: `heartbeatConsecutivePartner`. -/
  consecutive : BitVec 5
  /-- Whether the partner's handshake is done: `handshakeTXDonePartner`. -/
  done : BitVec 1
  deriving DecidableEq, Repr

/-- The registers of the handshake. -/
structure Detector where
  /-- `heartbeatRX`. -/
  heartbeatRX : BitVec 5
  /-- `heartbeatConsecutive`. -/
  heartbeatConsecutive : BitVec 5
  /-- `heartbeatFirst`. -/
  heartbeatFirst : Bool
  /-- `handshakeRXDone`. -/
  handshakeRXDone : Bool
  /-- `handshakeTXDone`. -/
  handshakeTXDone : Bool
  deriving DecidableEq, Repr

/-- The registers after reset. -/
def Detector.reset : Detector := ⟨0, 0, true, false, false⟩

/-- Whether a heartbeat is counted. -/
def Detector.counts (h : Heartbeat) (d : Detector) : Bool :=
  d.heartbeatRX + 1 == h.number && (!d.heartbeatFirst || h.done == 0)

/-- A heartbeat is received. -/
def Detector.hear (h : Heartbeat) (d : Detector) : Detector where
  heartbeatRX := h.number
  heartbeatFirst := if d.counts h then false else d.heartbeatFirst
  heartbeatConsecutive :=
    if d.counts h then d.heartbeatConsecutive + 1 else d.heartbeatConsecutive
  handshakeRXDone :=
    if 6 < d.heartbeatConsecutive ∧ 6 < h.consecutive then true else d.handshakeRXDone
  handshakeTXDone :=
    if 8 < d.heartbeatConsecutive ∧ 8 < h.consecutive then true else d.handshakeTXDone

/-- The registers after the heartbeats received. -/
def heard (hs : List Heartbeat) : Detector := hs.foldl (fun d h => d.hear h) .reset

@[simp] theorem heard_concat (hs : List Heartbeat) (h : Heartbeat) :
    heard (hs ++ [h]) = (heard hs).hear h := by
  simp [heard, List.foldl_append]

/-! ### Runs -/

/-- What the heartbeats received amount to. -/
structure Tally where
  /-- The number of the last one. -/
  last : BitVec 5
  /-- How many were counted. -/
  counted : ℕ
  /-- How many of those are the last ones received. -/
  run : ℕ
  deriving DecidableEq, Repr

namespace Tally

/-- Whether a heartbeat is counted: it continues the numbers, and the first one counted comes from a
partner whose handshake is not done. -/
def counts (h : Heartbeat) (t : Tally) : Bool :=
  t.last + 1 == h.number && (t.counted != 0 || h.done == 0)

/-- One more heartbeat: one that is not counted interrupts the run. -/
def add (h : Heartbeat) (t : Tally) : Tally where
  last := h.number
  counted := if t.counts h then t.counted + 1 else t.counted
  run := if t.counts h then t.run + 1 else 0

end Tally

/-- The tally of the heartbeats received. -/
def tally (hs : List Heartbeat) : Tally := hs.foldl (fun t h => t.add h) ⟨0, 0, 0⟩

@[simp] theorem tally_concat (hs : List Heartbeat) (h : Heartbeat) :
    tally (hs ++ [h]) = (tally hs).add h := by
  simp [tally, List.foldl_append]

/-- Heartbeats whose numbers go on from a number. -/
def Consecutive : BitVec 5 → List Heartbeat → Prop
  | _, [] => True
  | n, h :: hs => h.number = n + 1 ∧ Consecutive h.number hs

theorem Consecutive.concat {n : BitVec 5} {hs : List Heartbeat} {h : Heartbeat}
    (hcons : Consecutive n hs) (hnext : h.number = (hs.map Heartbeat.number).getLastD n + 1) :
    Consecutive n (hs ++ [h]) := by
  induction hs generalizing n with
  | nil => exact ⟨hnext, trivial⟩
  | cons g hs ih =>
    rw [List.map_cons, List.getLastD_cons] at hnext
    exact ⟨hcons.1, ih hcons.2 hnext⟩

theorem last_append (pre run : List Heartbeat) :
    (tally (pre ++ run)).last = (run.map Heartbeat.number).getLastD (tally pre).last := by
  induction run using List.reverseRecOn with
  | nil => rw [List.append_nil]; rfl
  | append_singleton run h _ =>
    rw [← List.append_assoc, tally_concat, List.map_append, List.map_singleton,
      List.getLastD_concat]
    rfl

/-- **What a run is**: the last heartbeats received, each numbered one more than the one before. -/
theorem tally_run (hs : List Heartbeat) : ∃ pre run, hs = pre ++ run ∧
    run.length = (tally hs).run ∧ Consecutive (tally pre).last run := by
  induction hs using List.reverseRecOn with
  | nil => exact ⟨[], [], rfl, rfl, trivial⟩
  | append_singleton hs h ih =>
    rw [tally_concat]
    by_cases hc : (tally hs).counts h = true
    · obtain ⟨pre, run, hsplit, hlen, hcons⟩ := ih
      refine ⟨pre, run ++ [h], by rw [hsplit, List.append_assoc], ?_, hcons.concat ?_⟩
      · simp [Tally.add, hc, hlen]
      · rw [Tally.counts, Bool.and_eq_true, beq_iff_eq, hsplit, last_append] at hc
        exact hc.1.symm
    · refine ⟨hs ++ [h], [], by simp, ?_, trivial⟩
      simp [Tally.add, hc]

/-! ### What the registers say -/

/-- The five bits of a count. -/
theorem ofNat_succ (n : ℕ) : BitVec.ofNat 5 n + 1 = BitVec.ofNat 5 (n + 1) := by
  rw [BitVec.ofNat_add]
  rfl

/-- **The registers after any heartbeats**: the count is the number counted, in five bits. -/
theorem heard_eq (hs : List Heartbeat) : (heard hs).heartbeatRX = (tally hs).last ∧
    (heard hs).heartbeatConsecutive = BitVec.ofNat 5 (tally hs).counted ∧
    (heard hs).heartbeatFirst = ((tally hs).counted == 0) := by
  induction hs using List.reverseRecOn with
  | nil => exact ⟨rfl, rfl, rfl⟩
  | append_singleton hs h ih =>
    obtain ⟨hlast, hcount, hfirst⟩ := ih
    have hcounts : (heard hs).counts h = (tally hs).counts h := by
      rw [Detector.counts, Tally.counts, hlast, hfirst]
      rfl
    rw [heard_concat, tally_concat]
    refine ⟨rfl, ?_, ?_⟩
    · change (if (heard hs).counts h then _ else _) = BitVec.ofNat 5 (if _ then _ else _)
      rw [hcounts, hcount, ofNat_succ]
      split <;> rfl
    · change (if (heard hs).counts h then _ else _) = ((if _ then _ else _) == 0)
      rw [hcounts, hfirst]
      split <;> rfl

/-- Some heartbeat was received that tells of more than `n`, after more than `n` by some measure. -/
def Reaches (measure : Tally → ℕ) (n : BitVec 5) (hs : List Heartbeat) : Prop :=
  ∃ pre h post, hs = pre ++ h :: post ∧ n.toNat < measure (tally pre) ∧ n < h.consecutive

theorem reaches_concat {measure : Tally → ℕ} {n : BitVec 5} {hs : List Heartbeat} {h : Heartbeat} :
    Reaches measure n (hs ++ [h]) ↔
      Reaches measure n hs ∨ (n.toNat < measure (tally hs) ∧ n < h.consecutive) := by
  constructor
  · rintro ⟨pre, g, post, hsplit, hpre, hg⟩
    rcases List.eq_nil_or_concat post with rfl | ⟨post, x, rfl⟩
    · obtain ⟨rfl, hlast⟩ := List.append_inj' hsplit rfl
      obtain rfl := (List.cons.inj hlast).1
      exact Or.inr ⟨hpre, hg⟩
    · rw [List.concat_eq_append, ← List.cons_append, ← List.append_assoc] at hsplit
      obtain ⟨rfl, _⟩ := List.append_inj' hsplit rfl
      exact Or.inl ⟨pre, g, post, rfl, hpre, hg⟩
  · rintro (⟨pre, g, post, rfl, hpre, hg⟩ | ⟨hpre, hg⟩)
    · exact ⟨pre, g, post ++ [h], by rw [List.append_assoc, List.cons_append], hpre, hg⟩
    · exact ⟨hs, h, [], rfl, hpre, hg⟩

theorem not_reaches_nil {measure : Tally → ℕ} {n : BitVec 5} : ¬Reaches measure n [] := by
  rintro ⟨pre, h, post, hsplit, _⟩
  cases pre <;> cases hsplit

/-- A flag after one more heartbeat. -/
def flag (n : BitVec 5) (h : Heartbeat) (count : BitVec 5) (old : Bool) : Bool :=
  if n < count ∧ n < h.consecutive then true else old

theorem flag_eq_true {n count : BitVec 5} {h : Heartbeat} {old : Bool} :
    flag n h count old = true ↔ old = true ∨ (n < count ∧ n < h.consecutive) := by
  rw [flag]
  split
  · next hset => exact ⟨fun _ => Or.inr hset, fun _ => rfl⟩
  · next hset => exact ⟨Or.inl, fun h => h.resolve_right hset⟩

/-- The count shows no more than was counted. -/
theorem lt_of_count {n : BitVec 5} {k : ℕ} (h : n < BitVec.ofNat 5 k) : n.toNat < k := by
  rw [BitVec.lt_def, BitVec.toNat_ofNat] at h
  exact Nat.lt_of_lt_of_le h (Nat.mod_le _ _)

theorem count_iff {n : BitVec 5} {k : ℕ} (hk : k < 32) : n < BitVec.ofNat 5 k ↔ n.toNat < k := by
  rw [BitVec.lt_def, BitVec.toNat_ofNat, Nat.mod_eq_of_lt hk]

/-- The heartbeats come without a gap once one was counted, and fewer than 32 are counted. -/
def Steady (hs : List Heartbeat) : Prop :=
  (∀ pre h post, hs = pre ++ h :: post → (tally pre).counted ≠ 0 →
    h.number = (tally pre).last + 1) ∧ (tally hs).counted < 32

/-- The same, heartbeat by heartbeat. -/
theorem steady_of_take {hs : List Heartbeat}
    (hnext : ∀ i < hs.length, (tally (hs.take i)).counted ≠ 0 →
      hs[i]?.map Heartbeat.number = some ((tally (hs.take i)).last + 1))
    (hcount : (tally hs).counted < 32) : Steady hs := by
  refine ⟨?_, hcount⟩
  rintro pre h post rfl hne
  have hlast := hnext pre.length (by simp)
  rw [List.take_left, List.getElem?_append_right (Nat.le_refl _), Nat.sub_self] at hlast
  exact Option.some.inj (hlast hne)

theorem counted_le_concat (hs : List Heartbeat) (h : Heartbeat) :
    (tally hs).counted ≤ (tally (hs ++ [h])).counted := by
  rw [tally_concat, Tally.add]
  dsimp only
  split
  · exact Nat.le_succ _
  · exact Nat.le_refl _

theorem Steady.init {hs : List Heartbeat} {h : Heartbeat} (hsteady : Steady (hs ++ [h])) :
    Steady hs := by
  refine ⟨fun pre g post hsplit => hsteady.1 pre g (post ++ [h]) ?_,
    Nat.lt_of_le_of_lt (counted_le_concat hs h) hsteady.2⟩
  rw [hsplit, List.append_assoc, List.cons_append]

/-- As long as nothing interrupts them, the heartbeats counted are the run. -/
theorem Steady.run_eq {hs : List Heartbeat} (hsteady : Steady hs) :
    (tally hs).run = (tally hs).counted := by
  induction hs using List.reverseRecOn with
  | nil => rfl
  | append_singleton hs h ih =>
    have ih := ih hsteady.init
    have hnext := hsteady.1 hs h [] rfl
    rw [tally_concat]
    by_cases hc : (tally hs).counts h = true
    · simp [Tally.add, hc, ih]
    · have hzero : (tally hs).counted = 0 := by
        by_contra hne
        refine hc ?_
        rw [Tally.counts, hnext hne]
        simp [hne]
      simp [Tally.add, hc, hzero]

/-- How a flag and the heartbeats received are related. -/
structure FlagOf (n : BitVec 5) (flag : Bool) (hs : List Heartbeat) : Prop where
  /-- The flag tells that more than `n` were counted, and that the partner counted more than `n`. -/
  only : flag = true → Reaches Tally.counted n hs
  /-- Without a gap, it is set exactly when more than `n` were received in an uninterrupted run. -/
  steady : Steady hs → (flag = true ↔ Reaches Tally.run n hs)

theorem FlagOf.hear {n : BitVec 5} {old : Bool} {hs : List Heartbeat} (hold : FlagOf n old hs)
    (h : Heartbeat) :
    FlagOf n (flag n h (heard hs).heartbeatConsecutive old) (hs ++ [h]) := by
  have hcount := (heard_eq hs).2.1
  refine ⟨?_, fun hsteady => ?_⟩
  · rw [flag_eq_true, hcount, reaches_concat]
    exact Or.imp hold.only fun ⟨hlt, hpartner⟩ => ⟨lt_of_count hlt, hpartner⟩
  · have hinit := hsteady.init
    rw [flag_eq_true, hcount, reaches_concat, hold.steady hinit, hinit.run_eq, count_iff hinit.2]

theorem flagOf_heard (hs : List Heartbeat) :
    FlagOf 6 (heard hs).handshakeRXDone hs ∧ FlagOf 8 (heard hs).handshakeTXDone hs := by
  induction hs using List.reverseRecOn with
  | nil =>
    exact ⟨⟨by rintro ⟨⟩, fun _ => ⟨by rintro ⟨⟩, fun h => absurd h not_reaches_nil⟩⟩,
      ⟨by rintro ⟨⟩, fun _ => ⟨by rintro ⟨⟩, fun h => absurd h not_reaches_nil⟩⟩⟩
  | append_singleton hs h ih =>
    rw [heard_concat]
    exact ⟨ih.1.hear h, ih.2.hear h⟩

/-- What the registers of the handshake tell about the heartbeats received. -/
structure Detects (d : Detector) (hs : List Heartbeat) : Prop where
  /-- `handshakeRXDone`. -/
  receive : FlagOf 6 d.handshakeRXDone hs
  /-- `handshakeTXDone`. -/
  transmit : FlagOf 8 d.handshakeTXDone hs
  /-- Without a gap, the count is the length of the uninterrupted run. -/
  count : Steady hs → d.heartbeatConsecutive.toNat = (tally hs).run

theorem detects_heard (hs : List Heartbeat) : Detects (heard hs) hs where
  receive := (flagOf_heard hs).1
  transmit := (flagOf_heard hs).2
  count hsteady := by
    rw [(heard_eq hs).2.1, hsteady.run_eq, BitVec.toNat_ofNat, Nat.mod_eq_of_lt hsteady.2]

/-! ### The two modules -/

namespace FlowControl

variable {P : Params}

/-- The registers of the handshake. -/
def Endpoint.detector (e : Endpoint P) : Detector :=
  ⟨e.heartbeatRX, e.heartbeatConsecutive, e.heartbeatFirst, e.handshakeRXDone, e.handshakeTXDone⟩

/-- What a flit says if it is a heartbeat. -/
def heartbeatOf (data : Raw P) : Heartbeat :=
  ⟨data.extractLsb' 0 5, data.extractLsb' 5 5, data.extractLsb' 10 1⟩

/-- The module with any flits received, and a history of the heartbeats among them. -/
inductive Listens : Endpoint P × List Heartbeat → Endpoint P × List Heartbeat → Prop
  /-- A rule fires. -/
  | rule {e e' : Endpoint P} {hs : List Heartbeat} {r : Rule P} {out : Option (Flit P)} :
      rule r e = some (e', out) → Listens (e, hs) (e', hs)
  /-- A flit is received. -/
  | intake {e e' : Endpoint P} {hs : List Heartbeat} {data : Raw P} :
      e.rxIntake data = some e' →
      Listens (e, hs) (e', if e.classify data = .heartbeat then hs ++ [heartbeatOf data] else hs)

variable (P) in
/-- The module from reset on. -/
def listening : TransitionSystem (Endpoint P × List Heartbeat) where
  init s := s = (.reset P, [])
  step := Listens

variable {e e' : Endpoint P} {hs : List Heartbeat}

/-- A rule leaves the registers of the handshake as they are. -/
theorem detector_rule {r : Rule P} {out : Option (Flit P)} (h : rule r e = some (e', out)) :
    e'.detector = e.detector := by
  -- a rule that sends nothing
  have hquiet : ∀ q : Option (Endpoint P), q.map (·, none) = some (e', out) → q = some e' := by
    intro q hq
    obtain ⟨e₁, he₁, heq⟩ := Option.map_eq_some_iff.mp hq
    obtain ⟨rfl, rfl⟩ := Prod.mk.inj heq
    exact he₁
  -- one that sends a flit
  have hsend : ∀ q : Option (Endpoint P × Flit P),
      q.map (fun x => (x.1, some x.2)) = some (e', out) → ∃ f, q = some (e', f) := by
    intro q hq
    obtain ⟨⟨e₁, f⟩, he₁, heq⟩ := Option.map_eq_some_iff.mp hq
    obtain ⟨rfl, rfl⟩ := Prod.mk.inj heq
    exact ⟨f, he₁⟩
  cases r with
  | beat =>
    obtain ⟨rfl, rfl⟩ := Prod.mk.inj (Option.some.inj h)
    rfl
  | write w =>
    have hq := hquiet _ h
    rw [Endpoint.write] at hq
    split at hq
    · obtain rfl := Option.some.inj hq
      rfl
    · cases hq
  | tickCC =>
    have hq := hquiet _ h
    rw [Endpoint.tickCC] at hq
    split at hq
    · obtain rfl := Option.some.inj hq
      rfl
    · cases hq
  | txHeartbeat =>
    obtain ⟨f, hq⟩ := hsend _ h
    rw [Endpoint.txHeartbeat] at hq
    split at hq
    · obtain ⟨rfl, rfl⟩ := Prod.mk.inj (Option.some.inj hq)
      rfl
    · cases hq
  | txFC =>
    obtain ⟨f, hq⟩ := hsend _ h
    rw [Endpoint.txFC] at hq
    split at hq
    · obtain ⟨rfl, rfl⟩ := Prod.mk.inj (Option.some.inj hq)
      rfl
    · cases hq
  | txData =>
    have hq := hquiet _ h
    rw [Endpoint.txData] at hq
    split at hq
    · split at hq
      · obtain rfl := Option.some.inj hq
        rfl
      · cases hq
    · cases hq
  | txSend =>
    obtain ⟨f, hq⟩ := hsend _ h
    rw [Endpoint.txSend] at hq
    split at hq
    · cases hq
    · split at hq
      · obtain ⟨rfl, rfl⟩ := Prod.mk.inj (Option.some.inj hq)
        rfl
      · cases hq
  | updateCredit =>
    have hq := hquiet _ h
    rw [Endpoint.updateCredit] at hq
    split at hq
    · cases hq
    · obtain rfl := Option.some.inj hq
      rfl
  | rxDemarsh =>
    have hq := hquiet _ h
    rw [Endpoint.rxDemarsh] at hq
    split at hq
    · cases hq
    · split at hq
      · obtain rfl := Option.some.inj hq
        rfl
      · cases hq
  | rxDone =>
    have hq := hquiet _ h
    rw [Endpoint.rxDone] at hq
    split at hq
    · obtain rfl := Option.some.inj hq
      rfl
    · cases hq
  | deq =>
    have hq := hquiet _ h
    rw [Endpoint.deq] at hq
    split at hq
    · cases hq
    · obtain rfl := Option.some.inj hq
      rfl

/-- A heartbeat changes them as `hear` says, and any other flit leaves them as they are. -/
theorem detector_rxIntake {data : Raw P} (h : e.rxIntake data = some e') :
    e'.detector =
      if e.classify data = .heartbeat then e.detector.hear (heartbeatOf data) else e.detector := by
  have hdata : ∀ e', e.rxData data = some e' → e'.detector = e.detector := by
    intro e' h
    rw [Endpoint.rxData] at h
    split at h
    · obtain rfl := Option.some.inj h
      rfl
    · cases h
  rw [Endpoint.rxIntake] at h
  rw [Endpoint.classify]
  by_cases hcount : e.flitCountRX = 0
  · rw [if_pos hcount] at h
    rw [if_pos hcount]
    by_cases hcredit : tagOf data = creditTag
    · rw [if_pos hcredit] at h
      rw [if_pos hcredit, if_neg (by rintro ⟨⟩)]
      split at h
      · rw [Endpoint.rxCredit] at h
        split at h
        · obtain rfl := Option.some.inj h
          rfl
        · cases h
      · obtain rfl := Option.some.inj h
        rfl
    · rw [if_neg hcredit] at h
      rw [if_neg hcredit]
      by_cases hheartbeat : tagOf data = heartbeatTag
      · rw [if_pos hheartbeat] at h
        rw [if_pos hheartbeat, if_pos rfl]
        obtain rfl := Option.some.inj h
        rfl
      · rw [if_neg hheartbeat] at h
        rw [if_neg hheartbeat, if_neg (by rintro ⟨⟩)]
        split at h
        · exact hdata _ h
        · obtain rfl := Option.some.inj h
          rfl
  · rw [if_neg hcount] at h
    rw [if_neg hcount, if_neg (by rintro ⟨⟩)]
    exact hdata _ h

/-- **The registers are those of the heartbeats received.** -/
theorem detector_eq_heard {s : Endpoint P × List Heartbeat} (h : (listening P).Reachable s) :
    s.1.detector = heard s.2 := by
  refine h.invariant (P := fun s => s.1.detector = heard s.2) ?_ ?_
  · rintro _ rfl
    rfl
  · rintro s t hs (⟨hr⟩ | ⟨hin⟩)
    · exact (detector_rule hr).trans hs
    · rw [detector_rxIntake hin]
      dsimp only
      split
      · rw [heard_concat, ← hs]
      · exact hs

end FlowControl

namespace Handshake

open LossyLink (Flit)

variable {P : Params}

/-- The registers of the handshake. -/
def Endpoint.detector (e : Endpoint P) : Detector :=
  ⟨e.heartbeatRX, e.heartbeatConsecutive, e.heartbeatFirst, e.handshakeRXDone, e.handshakeTXDone⟩

/-- What a flit says if it is a heartbeat. -/
def heartbeatOf (x : Flit (Grouped.Raw P.format)) : Heartbeat :=
  let ctrlPayload := Grouped.controlOf x.raw
  ⟨ctrlPayload.extractLsb' 0 5, ctrlPayload.extractLsb' 5 5, ctrlPayload.extractLsb' 10 1⟩

/-- Whether a flit is taken for a heartbeat: it is one, and not corrupt. -/
def isHeartbeat (e : Endpoint P) (x : Flit (Grouped.Raw P.format)) : Prop :=
  Grouped.ctrlOf x.raw ≠ Grouped.payload ∧ Grouped.tagOf x.raw = P.heartbeat ∧
    e.core.notCorrupt x = true

instance (e : Endpoint P) (x : Flit (Grouped.Raw P.format)) : Decidable (isHeartbeat e x) :=
  inferInstanceAs (Decidable (_ ∧ _))

/-- The history of the heartbeats received, after a flit. -/
def noteHeartbeat (e : Endpoint P) (x : Flit (Grouped.Raw P.format)) (_ : Endpoint P)
    (hs : List Heartbeat) : List Heartbeat :=
  if isHeartbeat e x then hs ++ [heartbeatOf x] else hs

variable (P) in
/-- The module with any flits received, and a history of the heartbeats among them. -/
def listening : TransitionSystem (Endpoint P × List Heartbeat) :=
  (machine P).watched noteHeartbeat []

variable {e e' : Endpoint P} {x : Flit (Grouped.Raw P.format)}
  {rest : List (Flit (Grouped.Raw P.format))}

/-- A heartbeat changes the registers as `hear` says, and any other flit leaves them as they are. -/
theorem detector_rxDemarsh (hx : e.core.serdesInfifo = x :: rest) (h : rxDemarsh e = some e') :
    e'.detector = if isHeartbeat e x then e.detector.hear (heartbeatOf x) else e.detector := by
  have hheader : P.heartbeat ≠ P.format.header := by
    change Handshake.heartbeat ≠ Handshake.header
    decide
  have hack : P.heartbeat ≠ P.format.ack := by
    change Handshake.heartbeat ≠ Handshake.ack
    decide
  rw [rxDemarsh, hx] at h
  dsimp only at h
  by_cases hpay : Grouped.ctrlOf x.raw = Grouped.payload
  · rw [if_pos hpay] at h
    rw [if_neg fun hb => hb.1 hpay]
    obtain ⟨c, _, rfl⟩ := Option.map_eq_some_iff.mp h
    rfl
  · rw [if_neg hpay] at h
    by_cases htag : Grouped.tagOf x.raw = P.heartbeat
    · rw [if_neg (by rw [htag]; exact hheader), if_neg (by rw [htag]; exact hack)] at h
      by_cases hok : e.core.notCorrupt x = true
      · rw [if_pos ⟨htag, hok⟩] at h
        rw [if_pos ⟨hpay, htag, hok⟩]
        obtain rfl := Option.some.inj h
        rfl
      · rw [if_neg fun hb => hok hb.2] at h
        rw [if_neg fun hb => hok hb.2.2]
        obtain rfl := Option.some.inj h
        rfl
    · rw [if_neg fun hb => htag hb.2.1]
      split at h
      · obtain rfl := Option.some.inj h
        rfl
      · split at h
        · obtain ⟨c, _, rfl⟩ := Option.map_eq_some_iff.mp h
          rfl
        · rw [if_neg fun hb => htag hb.1] at h
          obtain rfl := Option.some.inj h
          rfl

theorem detector_withCore {r : Option (Grouped.Core P.format × Option (Grouped.Raw P.format))}
    {out : Option (Grouped.Raw P.format)} (h : e.withCore r = some (e', out)) :
    e'.detector = e.detector := by
  obtain ⟨⟨c, f⟩, _, heq⟩ := Option.map_eq_some_iff.mp h
  obtain ⟨rfl, rfl⟩ := Prod.mk.inj heq
  rfl

/-- A rule that examines nothing leaves the registers as they are. -/
theorem detector_rule {r : Rule P} {out : Option (Grouped.Raw P.format)}
    (hex : (machine P).examines r e = none) (h : rule r e = some (e', out)) :
    e'.detector = e.detector := by
  cases r with
  | shared r => exact detector_withCore h
  | txHeader => exact detector_withCore h
  | txACK => exact detector_withCore h
  | beat =>
    obtain ⟨rfl, rfl⟩ := Prod.mk.inj (Option.some.inj h)
    rfl
  | tickCC =>
    obtain ⟨e₁, hq, heq⟩ := Option.map_eq_some_iff.mp h
    obtain ⟨rfl, rfl⟩ := Prod.mk.inj heq
    rw [Endpoint.tickCC] at hq
    split at hq
    · obtain rfl := Option.some.inj hq
      rfl
    · cases hq
  | txHeartbeat =>
    obtain ⟨⟨e₁, f⟩, hq, heq⟩ := Option.map_eq_some_iff.mp h
    obtain ⟨rfl, rfl⟩ := Prod.mk.inj heq
    rw [Endpoint.txHeartbeat] at hq
    split at hq
    · obtain ⟨rfl, rfl⟩ := Prod.mk.inj (Option.some.inj hq)
      rfl
    · cases hq
  | rxDemarsh =>
    obtain ⟨e₁, hq, _⟩ := Option.map_eq_some_iff.mp h
    have hempty : e.core.serdesInfifo = [] := List.head?_eq_none_iff.mp hex
    rw [rxDemarsh, hempty] at hq
    cases hq

/-- **The registers are those of the heartbeats received.** -/
theorem detector_eq_heard {s : Endpoint P × List Heartbeat} (h : (listening P).Reachable s) :
    s.1.detector = heard s.2 := by
  refine LossyLink.watched_invariant (I := fun e hs => e.detector = heard hs) rfl ?_ ?_ ?_ h
  · intro e hs x e' hd hin
    obtain ⟨c, _, rfl⟩ := Option.map_eq_some_iff.mp hin
    exact hd
  · intro e hs r e' out hd hex hr
    exact (detector_rule hex hr).trans hd
  · intro e hs r x e' out hd hex hr
    cases r with
    | rxDemarsh =>
      obtain ⟨rest, hrest⟩ := List.head?_eq_some_iff.mp hex
      obtain ⟨e₁, hq, heq⟩ := Option.map_eq_some_iff.mp hr
      obtain ⟨rfl, rfl⟩ := Prod.mk.inj heq
      rw [detector_rxDemarsh hrest hq, noteHeartbeat]
      split
      · rw [heard_concat, ← hd]
      · exact hd
    | _ => cases hex

end Handshake

namespace FlowControl

/-- A flit arrives at the module by itself. -/
def listenTurn (s : Endpoint sampleParams × List Heartbeat) (data : Raw sampleParams) :
    Option (Endpoint sampleParams × List Heartbeat) :=
  (s.1.rxIntake data).map fun e =>
    (e, if s.1.classify data = .heartbeat then s.2 ++ [heartbeatOf data] else s.2)

theorem listens_of_turn {data : Raw sampleParams} {s t : Endpoint sampleParams × List Heartbeat}
    (h : listenTurn s data = some t) : (listening sampleParams).step s t := by
  obtain ⟨e, hs⟩ := s
  obtain ⟨e', he, rfl⟩ := Option.map_eq_some_iff.mp h
  exact .intake he

/-- Heartbeats with these numbers arrive, from a partner that counted so many. -/
def hearNumbers (consecutive : BitVec 5) (numbers : List ℕ) :
    Option (Endpoint sampleParams × List Heartbeat) :=
  (numbers.map fun n => heartbeatWord false consecutive (BitVec.ofNat 5 n)).foldlM listenTurn
    (.reset sampleParams, [])

theorem hearNumbers_reachable {consecutive : BitVec 5} {numbers : List ℕ}
    {s : Endpoint sampleParams × List Heartbeat} (h : hearNumbers consecutive numbers = some s) :
    (listening sampleParams).Reachable s :=
  TransitionSystem.Reachable.run (f := fun data s => listenTurn s data)
    (fun _ _ _ => listens_of_turn) (.init rfl) h

end FlowControl

/-- Heartbeats with the numbers from one on, from a partner that counted so many. -/
def inSequence (consecutive : BitVec 5) (n : ℕ) : List Heartbeat :=
  (List.range n).map fun i => ⟨BitVec.ofNat 5 (i + 1), consecutive, 0⟩

end Aurora

end LeapPlatforms
