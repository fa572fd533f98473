import LeapPlatforms.Dram.BankController
import Mathlib.Data.List.Basic

/-!
# Write data of a bank

Every write takes the next burst of beats that the initialisation or the user gave. The registers
that hold the burst are free for the next one as soon as the first beat is out, since the beats go
out in consecutive cycles; when the memory controller does not take them, the next burst overwrites
what is still to go.

## Main definitions

* `writes` — how many writes there are among requests
* `Requested`, `Given`, `Aligned` — what crosses to the controller's clock
* `Careful` — what a step must not do
* `Emitted` — what is in the registers, and what went out

## Main results

* `requested_of_reachable`, `given_of_reachable`, `aligned_of_reachable`
* `emitted_of_reachable`
* `write_pairing`, `write_overwritten`, `middle_marked`
-/

namespace LeapPlatforms

namespace Dram

variable {P : Params}

/-! ### What crosses -/

/-- Whether a request is a write. -/
def Request.isWrite : Request P → Bool
  | .read _ => false
  | .write _ => true

/-- How many writes are asked for. -/
def writes (l : List (Request P)) : ℕ := l.countP Request.isWrite

@[simp] theorem writes_nil : writes ([] : List (Request P)) = 0 := rfl

@[simp] theorem writes_append (l l' : List (Request P)) : writes (l ++ l') = writes l + writes l' :=
  List.countP_append

@[simp] theorem writes_read (a : Address P) : writes [Request.read a] = 0 := rfl

@[simp] theorem writes_write (a : Address P) : writes [Request.write a] = 1 := rfl

/-- Requests reach the memory controller in the order in which they were made, the initialisation's
first. -/
structure Requested (s : Bank P) : Prop where
  /-- What the controller has, what is on its way and what waits. -/
  order : s.commands ++ s.syncRequestQ ++ s.commandQ = s.initRequests ++ s.userRequests
  /-- A request of the user waits until the initialisation is over. -/
  initial : s.state = .init → s.commands ++ s.syncRequestQ = s.initRequests

/-- So does the data. -/
structure Given (s : Bank P) : Prop where
  /-- What was copied and what is on its way. -/
  order : s.copied ++ s.syncWriteDataQ = s.initData ++ s.userData
  /-- The user gives none until the initialisation is over. -/
  initial : s.state = .init → s.userData = []

/-- The initialisation gives whole bursts. -/
structure Aligned (s : Bank P) : Prop where
  /-- A burst for each of its writes. -/
  ready : s.state = .ready → s.initData.length = P.burstLength * writes s.initRequests
  /-- While the pattern is written, the burst of the last write is not complete. -/
  filling : s.state = .init → s.initPhase = 1 → s.initBurstIdx < P.burstLength ∧
    s.initData.length + (if s.initBurstIdx = 0 then 0 else P.burstLength - s.initBurstIdx) =
      P.burstLength * writes s.initRequests
  /-- Without the patch there is nothing to give. -/
  plain : P.initPatch = false → s.initData = [] ∧ s.initRequests = []
  /-- While the read is copied, its beats are those of the one write. -/
  copying : s.state = .init → s.initPhase = 0 → s.initBurstIdx ≤ P.burstLength ∧
    s.initData.length = s.initBurstIdx - 1 ∧
    writes s.initRequests = if s.initBurstIdx ≤ 1 then 0 else 1

variable {s t : Bank P} {r : Rule P}

theorem Requested.step (h : Requested s) (hr : Step r s t) : Requested t := by
  have horder := h.order
  have hinitial := h.initial
  -- the initialisation asks for something
  have hinit : ∀ q, s.state = .init → Requested (s.initRequest q) := by
    intro q hstate
    have hs := hinitial hstate
    rw [hs] at horder
    have huser := List.append_cancel_left horder
    refine ⟨?_, fun _ => ?_⟩
    · show s.commands ++ (s.syncRequestQ ++ [q]) ++ s.commandQ =
        s.initRequests ++ [q] ++ s.userRequests
      rw [← List.append_assoc, hs, huser]
    · show s.commands ++ (s.syncRequestQ ++ [q]) = s.initRequests ++ [q]
      rw [← List.append_assoc, hs]
  cases hr with
  | dramReadyInit =>
    rw [Bank.dramReadyInit]
    split <;> exact ⟨horder, hinitial⟩
  | initPlain _ hstate => exact ⟨horder, fun _ => hinitial hstate⟩
  | initRead _ hstate _ _ =>
    have hq := hinit (.read 0) hstate
    exact ⟨hq.order, hq.initial⟩
  | initCopy _ hstate _ _ _ =>
    have hq := hinit (.write 0) hstate
    rw [Bank.initCopy]
    split
    · split
      · exact ⟨hq.order, hq.initial⟩
      · exact ⟨horder, hinitial⟩
    · split
      · exact ⟨hq.order, hq.initial⟩
      · exact ⟨horder, hinitial⟩
  | initFill _ hstate _ =>
    have hq := hinit (.write s.initAddr) hstate
    rw [Bank.initFill]
    split
    · split
      · exact ⟨hq.order, fun _ => hq.initial hstate⟩
      · exact ⟨horder, fun _ => hinitial hstate⟩
    · split
      · exact ⟨hq.order, hq.initial⟩
      · exact ⟨horder, hinitial⟩
  | command cmd =>
    refine ⟨?_, hinitial⟩
    show s.commands ++ s.syncRequestQ ++ (s.commandQ ++ [cmd]) =
      s.initRequests ++ (s.userRequests ++ [cmd])
    rw [← List.append_assoc, horder, List.append_assoc]
  | doReadReq hq hstate _ =>
    refine ⟨?_, fun hinit => ?_⟩
    · rw [hq] at horder
      show s.commands ++ (s.syncRequestQ ++ [_]) ++ _ = _
      simpa using horder
    · exact absurd (hstate.symm.trans hinit) (by decide)
  | doWriteReq hq hstate =>
    refine ⟨?_, fun hinit => ?_⟩
    · rw [hq] at horder
      show s.commands ++ (s.syncRequestQ ++ [_]) ++ _ = _
      simpa using horder
    · exact absurd (hstate.symm.trans hinit) (by decide)
  | processReadRequest hq _ =>
    rw [hq] at horder hinitial
    exact ⟨by simpa using horder, fun hstate => by simpa using hinitial hstate⟩
  | processWriteRequest hq _ _ =>
    rw [hq] at horder hinitial
    exact ⟨by simpa using horder, fun hstate => by simpa using hinitial hstate⟩
  | processWriteRequest0 hq _ _ _ =>
    rw [hq] at horder hinitial
    exact ⟨by simpa using horder, fun hstate => by simpa using hinitial hstate⟩
  | _ => exact ⟨horder, hinitial⟩

theorem Given.step (h : Given s) (hr : Step r s t) : Given t := by
  have horder := h.order
  have hinitial := h.initial
  -- the initialisation gives something
  have hinit : ∀ d, s.state = .init → Given (s.initWrite d) := by
    intro d hstate
    have huser := hinitial hstate
    refine ⟨?_, hinitial⟩
    rw [huser, List.append_nil] at horder
    show s.copied ++ (s.syncWriteDataQ ++ [d]) = s.initData ++ [d] ++ s.userData
    rw [huser, List.append_nil, ← List.append_assoc, horder]
  cases hr with
  | dramReadyInit =>
    rw [Bank.dramReadyInit]
    split <;> exact ⟨horder, hinitial⟩
  | initPlain _ hstate => exact ⟨horder, fun _ => hinitial hstate⟩
  | @initCopy _ data _ _ hstate _ _ _ =>
    have hd := hinit (data, 0) hstate
    rw [Bank.initCopy]
    split
    · split <;> exact ⟨hd.order, hd.initial⟩
    · split <;> exact ⟨hd.order, hd.initial⟩
  | initFill _ hstate _ =>
    have hd := hinit (Bank.initPattern, 0) hstate
    rw [Bank.initFill]
    split
    · split <;> exact ⟨hd.order, fun _ => hd.initial hstate⟩
    · split <;> exact ⟨hd.order, hd.initial⟩
  | writeData d hstate =>
    refine ⟨?_, fun hinit => absurd (hstate.symm.trans hinit) (by decide)⟩
    show s.copied ++ (s.syncWriteDataQ ++ [d]) = s.initData ++ (s.userData ++ [d])
    rw [← List.append_assoc, horder, List.append_assoc]
  | processWriteRequest _ hd _ =>
    rw [hd] at horder
    exact ⟨by simpa using horder, hinitial⟩
  | copyWriteData hd _ _ =>
    rw [hd] at horder
    exact ⟨by simpa using horder, hinitial⟩
  | _ => exact ⟨horder, hinitial⟩

/-- One beat of a burst less to come. -/
theorem up_burst {n : ℕ} (h : n < P.burstLength) : up (burstBits P) n = n + 1 :=
  up_eq (Nat.lt_of_le_of_lt h (burstLength_lt P))

theorem not_plain (hpatch : P.initPatch = true) {p : Prop} (h : P.initPatch = false) : p := by
  rw [hpatch] at h
  cases h

/-- While the read is copied. -/
theorem Aligned.initCopy (h : Aligned s) (hpatch : P.initPatch = true) (hstate : s.state = .init)
    (hphase : s.initPhase = 0) (hidx : s.initBurstIdx ≠ 0) (data : Beat P) (rest : List (Beat P)) :
    Aligned (s.initCopy data rest) := by
  have hpos := P.burstLength_pos
  obtain ⟨hle, hlen, hwrites⟩ := h.copying hstate hphase
  -- the beat is that of the write
  have hlen' : (s.initCopy data rest).initData.length = s.initBurstIdx := by
    rw [Bank.initCopy]
    split <;> split <;> simp [Bank.initWrite, Bank.initRequest] <;> omega
  have hwrites' : writes (s.initCopy data rest).initRequests = 1 := by
    rw [Bank.initCopy]
    split <;> split <;> simp [Bank.initWrite, Bank.initRequest, hwrites] <;> omega
  have hstate' : (s.initCopy data rest).state = .init := by
    rw [Bank.initCopy]
    split <;> split <;> exact hstate
  refine ⟨fun hready => ?_, fun _ hfill => ?_, not_plain hpatch, fun _ hcopy => ?_⟩
  · rw [hstate'] at hready
    cases hready
  · by_cases hlast : s.initBurstIdx = P.burstLength
    · have hidx' : (s.initCopy data rest).initBurstIdx = 0 := by
        rw [Bank.initCopy, if_pos hlast]
      rw [hidx', hlen', hwrites', if_pos rfl]
      omega
    · have hphase' : (s.initCopy data rest).initPhase = 0 := by
        rw [Bank.initCopy, if_neg hlast]
        split <;> exact hphase
      rw [hphase'] at hfill
      cases hfill
  · by_cases hlast : s.initBurstIdx = P.burstLength
    · have hphase' : (s.initCopy data rest).initPhase = 1 := by
        rw [Bank.initCopy, if_pos hlast]
      rw [hphase'] at hcopy
      cases hcopy
    · have hidx' : (s.initCopy data rest).initBurstIdx = s.initBurstIdx + 1 := by
        rw [Bank.initCopy, if_neg hlast]
        exact up_burst (by omega)
      rw [hidx', hlen', hwrites', if_neg (by omega)]
      omega

/-- While the pattern is written. -/
theorem Aligned.initFill (h : Aligned s) (hpatch : P.initPatch = true) (hstate : s.state = .init)
    (hphase : s.initPhase = 1) : Aligned s.initFill := by
  have hpos := P.burstLength_pos
  obtain ⟨hlt, hlen⟩ := h.filling hstate hphase
  have hlen' : s.initFill.initData.length = s.initData.length + 1 := by
    rw [Bank.initFill]
    split <;> split <;> simp [Bank.initWrite, Bank.initRequest]
  have hwrites' : writes s.initFill.initRequests =
      writes s.initRequests + if s.initBurstIdx = 0 then 1 else 0 := by
    rw [Bank.initFill]
    split <;> split <;> simp [Bank.initWrite, Bank.initRequest, *]
  have hphase' : s.initFill.initPhase = 1 := by
    rw [Bank.initFill]
    split <;> split <;> exact hphase
  -- a burst that is complete after the last beat
  have hcount : s.initFill.initData.length + (P.burstLength - (s.initBurstIdx + 1)) =
      P.burstLength * writes s.initFill.initRequests := by
    rw [hlen', hwrites', Nat.mul_add, ← hlen]
    by_cases hzero : s.initBurstIdx = 0
    · rw [if_pos hzero, if_pos hzero]
      omega
    · rw [if_neg hzero, if_neg hzero]
      omega
  have hidx' : s.initFill.initBurstIdx =
      if s.initBurstIdx = P.burstLength - 1 then 0 else s.initBurstIdx + 1 := by
    rw [Bank.initFill]
    split
    · rfl
    · exact up_burst hlt
  refine ⟨fun hready => ?_, fun _ _ => ?_, not_plain hpatch, fun _ hcopy => ?_⟩
  · have hlast : s.initBurstIdx = P.burstLength - 1 := by
      by_contra hlast
      rw [Bank.initFill, if_neg hlast] at hready
      split at hready
      · exact absurd (hready.symm.trans hstate) (by decide)
      · exact absurd (hready.symm.trans hstate) (by decide)
    rw [← hcount]
    omega
  · rw [hidx', ← hcount]
    split <;> split <;> omega
  · rw [hphase'] at hcopy
    cases hcopy

theorem Aligned.step (h : Aligned s) (hr : Step r s t) : Aligned t := by
  cases hr with
  | dramReadyInit =>
    rw [Bank.dramReadyInit]
    split <;> exact ⟨h.ready, h.filling, h.plain, h.copying⟩
  | initPlain hpatch _ =>
    obtain ⟨hdata, hrequests⟩ := h.plain hpatch
    refine ⟨fun _ => ?_, fun hinit => ?_, h.plain, fun hinit => ?_⟩
    · show s.initData.length = P.burstLength * writes s.initRequests
      rw [hdata, hrequests]
      rfl
    · cases hinit
    · cases hinit
  | initRead hpatch hstate hphase hidx =>
    obtain ⟨_, hlen, hwrites⟩ := h.copying hstate hphase
    have hidx' : up (burstBits P) s.initBurstIdx = 1 := by
      rw [hidx]
      exact up_burst P.burstLength_pos
    refine ⟨fun hready => absurd (hready.symm.trans hstate) (by decide), fun _ hfill => ?_,
      not_plain hpatch, fun _ _ => ⟨?_, ?_, ?_⟩⟩
    · exact absurd (hphase.symm.trans hfill) (by decide)
    · show up (burstBits P) s.initBurstIdx ≤ P.burstLength
      rw [hidx']
      exact P.burstLength_pos
    · show s.initData.length = up (burstBits P) s.initBurstIdx - 1
      rw [hidx', hlen, hidx]
    · show writes (s.initRequests ++ [.read 0]) = if up (burstBits P) s.initBurstIdx ≤ 1 then 0 else 1
      rw [hidx', writes_append, hwrites, hidx]
      rfl
  | initCopy hpatch hstate hphase hidx _ => exact h.initCopy hpatch hstate hphase hidx _ _
  | initFill hpatch hstate hphase => exact h.initFill hpatch hstate hphase
  | _ => exact ⟨h.ready, h.filling, h.plain, h.copying⟩

/-! ### What goes out -/

variable (P) in
/-- A beat that goes out, with the mark of the end of a burst: `n` went out before it. -/
def mark (n : ℕ) (d : Beat P × Mask P) : (Beat P × Mask P) × Bool :=
  (d, n % P.burstLength == P.burstLength - 1)

/-- What a step must not do. A beat must not be overwritten before it is out, and only the last
beat of a burst may go out after the first. -/
def Careful : Rule P → Bank P → Prop
  | .copyWriteData, s => s.writeEmitIdx = 0 ∨ s.writeBurstIdx < s.writeEmitIdx
  | .processWriteRequest1, s => s.writeEmitIdx = P.burstLength - 1
  | _, _ => True

instance : (r : Rule P) → (s : Bank P) → Decidable (Careful r s)
  | .copyWriteData, _ => inferInstanceAs (Decidable (_ ∨ _))
  | .processWriteRequest1, _ => inferInstanceAs (Decidable (_ = _))
  | .initDoneSet, _ | .dramReadyInit, _ | .dramReadyToModel, _ | .initPhase0, _ | .initPhase1, _
  | .command _, _ | .writeData _, _ | .readRsp, _ | .setMaxReads _, _ | .doReadReq, _
  | .doWriteReq, _ | .processReadRequest, _ | .processWriteRequest, _ | .processWriteRequest0, _
  | .readDataToBuffer _, _ => isTrue trivial

/-- The registers hold the rest of the burst that goes out, and the beginning of the next. -/
structure Emitted (s : Bank P) : Prop where
  /-- A burst for each write, and the beginning of the next. -/
  copied : s.copied.length = P.burstLength * writes s.commands + s.writeBurstIdx
  /-- There is room for one burst. -/
  burstIdx_le : s.writeBurstIdx ≤ P.burstLength
  /-- The burst of the last write may still go out. -/
  beats : s.beats.length +
    (if s.writeEmitIdx = 0 then 0 else P.burstLength - s.writeEmitIdx) =
      P.burstLength * writes s.commands
  /-- It is a beat of a burst. -/
  emitIdx_lt : s.writeEmitIdx < P.burstLength
  /-- Only registers that are out are taken. -/
  free : s.writeEmitIdx ≠ 0 → s.writeBurstIdx ≤ s.writeEmitIdx
  /-- The next burst. -/
  next : ∀ i < s.writeBurstIdx,
    s.copied[P.burstLength * writes s.commands + i]? = some (s.writeValue i)
  /-- The burst that goes out. -/
  held : s.writeEmitIdx ≠ 0 → ∀ i, s.writeEmitIdx ≤ i → i < P.burstLength →
    s.copied[s.beats.length + (i - s.writeEmitIdx)]? = some (s.writeValue i)
  /-- What went out. -/
  marked : s.beats = (s.copied.take s.beats.length).mapIdx (mark P)

namespace Emitted

theorem beats_le (h : Emitted s) : s.beats.length ≤ s.copied.length := by
  have hbeats := h.beats
  rw [h.copied, ← hbeats]
  omega

/-- What there is stays where it is. -/
theorem getElem?_concat {α : Type} {l : List α} {i : ℕ} {a : α} (h : l[i]? = some a) (b : α) :
    (l ++ [b])[i]? = some a := by
  obtain ⟨hi, _⟩ := List.getElem?_eq_some_iff.mp h
  rw [List.getElem?_append_left hi, h]

/-- One more beat goes out. -/
theorem marked_concat {l : List (Beat P × Mask P)} {b : List ((Beat P × Mask P) × Bool)}
    {d : Beat P × Mask P} (h : b = (l.take b.length).mapIdx (mark P))
    (hd : l[b.length]? = some d) :
    b ++ [mark P b.length d] = (l.take (b ++ [mark P b.length d]).length).mapIdx (mark P) := by
  obtain ⟨hlt, hget⟩ := List.getElem?_eq_some_iff.mp hd
  have hlen : (l.take b.length).length = b.length := by
    rw [List.length_take]
    omega
  rw [List.length_append, List.length_singleton, List.take_add_one, hd, Option.toList_some,
    List.mapIdx_concat, ← h, hlen]

theorem copyWriteData (h : Emitted s) {d : Beat P × Mask P} (hidx : s.writeBurstIdx ≠ P.burstLength)
    (hcareful : s.writeEmitIdx = 0 ∨ s.writeBurstIdx < s.writeEmitIdx)
    (ds : List (Beat P × Mask P)) :
    Emitted { s with
      syncWriteDataQ := ds
      copied := s.copied ++ [d]
      writeValue := Function.update s.writeValue s.writeBurstIdx d
      writeBurstIdx := up (burstBits P) s.writeBurstIdx } := by
  have hle := h.burstIdx_le
  have hcopied := h.copied
  rw [up_burst (by omega)]
  constructor
  case copied =>
    show (s.copied ++ [d]).length = _ + (s.writeBurstIdx + 1)
    rw [List.length_append, hcopied]
    rfl
  case burstIdx_le =>
    show s.writeBurstIdx + 1 ≤ P.burstLength
    omega
  case beats => exact h.beats
  case emitIdx_lt => exact h.emitIdx_lt
  case free =>
    intro hne
    show s.writeBurstIdx + 1 ≤ s.writeEmitIdx
    have hne' : s.writeEmitIdx ≠ 0 := hne
    omega
  case next =>
    intro i hi
    have hi' : i < s.writeBurstIdx + 1 := hi
    show (s.copied ++ [d])[_]? = some (Function.update s.writeValue s.writeBurstIdx d i)
    by_cases hlast : i = s.writeBurstIdx
    · rw [hlast, Function.update_self, ← hcopied, List.getElem?_concat_length]
    · rw [Function.update_of_ne hlast]
      exact getElem?_concat (h.next i (by omega)) d
  case held =>
    intro hne i hei hiB
    have hne' : s.writeEmitIdx ≠ 0 := hne
    have hei' : s.writeEmitIdx ≤ i := hei
    show (s.copied ++ [d])[_]? = some (Function.update s.writeValue s.writeBurstIdx d i)
    rw [Function.update_of_ne (by omega)]
    exact getElem?_concat (h.held hne' i hei' hiB) d
  case marked =>
    show s.beats = ((s.copied ++ [d]).take s.beats.length).mapIdx (mark P)
    rw [List.take_append_of_le_length h.beats_le]
    exact h.marked

theorem processWriteRequest0 (h : Emitted s) (hburst : P.burstLength ≠ 1)
    (hidx : s.writeBurstIdx = P.burstLength) (hemit : s.writeEmitIdx = 0) (addr : Address P)
    (rest : List (Request P)) :
    Emitted { s with
      syncRequestQ := rest
      commands := s.commands ++ [.write addr]
      beats := s.beats ++ [(s.writeValue 0, P.burstLength == 1)]
      writeEmitIdx := 1
      writeBurstIdx := 0 } := by
  have hpos := P.burstLength_pos
  have hbeats := h.beats
  rw [hemit, if_pos rfl, Nat.add_zero] at hbeats
  have hcopied := h.copied
  rw [hidx] at hcopied
  have hwrites : writes (s.commands ++ [.write addr]) = writes s.commands + 1 := by simp
  have hfirst := h.next 0 (by omega)
  rw [Nat.add_zero, ← hbeats] at hfirst
  have hmark : (s.writeValue 0, P.burstLength == 1) = mark P s.beats.length (s.writeValue 0) := by
    rw [mark, hbeats, Nat.mul_mod_right, beq_eq_false_iff_ne.mpr hburst,
      beq_eq_false_iff_ne.mpr (by omega)]
  constructor
  case copied =>
    show s.copied.length = P.burstLength * writes (s.commands ++ [.write addr]) + 0
    rw [hwrites, hcopied, Nat.mul_add, Nat.mul_one, Nat.add_zero]
  case burstIdx_le => exact Nat.zero_le _
  case beats =>
    show (s.beats ++ [_]).length + (P.burstLength - 1) =
      P.burstLength * writes (s.commands ++ [.write addr])
    rw [hwrites, Nat.mul_add, Nat.mul_one, ← hbeats, List.length_append, List.length_singleton]
    omega
  case emitIdx_lt =>
    show 1 < P.burstLength
    omega
  case free => exact fun _ => Nat.zero_le _
  case next => exact fun i hi => absurd hi (Nat.not_lt_zero i)
  case held =>
    intro _ i hei hiB
    have hei' : 1 ≤ i := hei
    show s.copied[(s.beats ++ [_]).length + (i - 1)]? = some (s.writeValue i)
    rw [List.length_append, List.length_singleton, hbeats,
      show P.burstLength * writes s.commands + 1 + (i - 1) =
        P.burstLength * writes s.commands + i by omega]
    exact h.next i (by omega)
  case marked =>
    show s.beats ++ [(s.writeValue 0, P.burstLength == 1)] = _
    rw [hmark]
    exact marked_concat h.marked hfirst

theorem processWriteRequest1 (h : Emitted s) (hburst : P.burstLength ≠ 1)
    (hemit : s.writeEmitIdx = P.burstLength - 1) :
    Emitted { s with
      beats := s.beats ++ [(s.writeValue s.writeEmitIdx, true)]
      writeEmitIdx := if s.writeEmitIdx = P.burstLength - 1 then 0
        else up (burstBits P) s.writeEmitIdx } := by
  have hpos := P.burstLength_pos
  have hne : s.writeEmitIdx ≠ 0 := by omega
  have hbeats := h.beats
  rw [if_neg hne] at hbeats
  have hlast := h.held hne s.writeEmitIdx (Nat.le_refl _) h.emitIdx_lt
  rw [Nat.sub_self, Nat.add_zero] at hlast
  have hmark : (s.writeValue s.writeEmitIdx, true) =
      mark P s.beats.length (s.writeValue s.writeEmitIdx) := by
    have hmod : s.beats.length % P.burstLength = P.burstLength - 1 := by
      obtain ⟨w, hw⟩ : ∃ w, writes s.commands = w + 1 := by
        refine ⟨writes s.commands - 1, ?_⟩
        have hwpos : writes s.commands ≠ 0 := by
          intro hzero
          rw [hzero, Nat.mul_zero] at hbeats
          omega
        omega
      rw [hw, Nat.mul_add, Nat.mul_one] at hbeats
      rw [show s.beats.length = P.burstLength - 1 + P.burstLength * w by omega,
        Nat.add_mul_mod_self_left, Nat.mod_eq_of_lt (by omega)]
    rw [mark, hmod, beq_self_eq_true]
  rw [if_pos hemit]
  constructor
  case copied => exact h.copied
  case burstIdx_le => exact h.burstIdx_le
  case beats =>
    show (s.beats ++ [_]).length + 0 = P.burstLength * writes s.commands
    rw [← hbeats, List.length_append, List.length_singleton]
    omega
  case emitIdx_lt => exact hpos
  case free => exact fun hzero => absurd rfl hzero
  case next => exact h.next
  case held => exact fun hzero => absurd rfl hzero
  case marked =>
    show s.beats ++ [(s.writeValue s.writeEmitIdx, true)] = _
    rw [hmark]
    exact marked_concat h.marked hlast

theorem step (hburst : P.burstLength ≠ 1) (h : Emitted s) (hr : Step r s t) (hc : Careful r s) :
    Emitted t := by
  cases hr with
  | dramReadyInit =>
    rw [Bank.dramReadyInit]
    split <;> exact { h with }
  | initCopy _ _ _ _ _ =>
    rw [Bank.initCopy]
    split <;> split <;> exact { h with }
  | initFill _ _ _ =>
    rw [Bank.initFill]
    split <;> split <;> exact { h with }
  | @processReadRequest _ addr _ _ _ =>
    have hwrites : writes (s.commands ++ [.read addr]) = writes s.commands := by simp
    refine { h with copied := ?_, beats := ?_, next := ?_ }
    · show s.copied.length = P.burstLength * writes (s.commands ++ [.read addr]) + _
      rw [hwrites, h.copied]
    · show _ = P.burstLength * writes (s.commands ++ [.read addr])
      rw [hwrites, ← h.beats]
    · show ∀ i < s.writeBurstIdx,
        s.copied[P.burstLength * writes (s.commands ++ [.read addr]) + i]? = _
      rw [hwrites]
      exact h.next
  | processWriteRequest _ _ hone => exact absurd hone hburst
  | copyWriteData _ _ hidx => exact h.copyWriteData hidx hc _
  | processWriteRequest0 _ _ hidx hemit => exact h.processWriteRequest0 hburst hidx hemit _ _
  | processWriteRequest1 _ _ => exact h.processWriteRequest1 hburst hc
  | _ => exact { h with }

end Emitted

/-! ### Runs -/

variable (P) in
/-- The runs in which every step is careful. -/
def carefulBank : TransitionSystem (Bank P) where
  init s := ∃ w, s = .reset w
  step s t := ∃ r, rule r s = some t ∧ Careful r s

theorem reachable_of_careful (h : (carefulBank P).Reachable s) : (bank P).Reachable s := by
  refine h.mono (fun _ hinit => hinit) fun s t hst => ?_
  obtain ⟨r, hr, _⟩ := hst
  exact ⟨r, hr⟩

theorem requested_of_reachable (hs : (bank P).Reachable s) : Requested s := by
  refine hs.invariant ?_ ?_
  · rintro _ ⟨w, rfl⟩
    exact ⟨rfl, fun _ => rfl⟩
  · rintro s t h ⟨r, hr⟩
    exact h.step (rule_step hr)

theorem given_of_reachable (hs : (bank P).Reachable s) : Given s := by
  refine hs.invariant ?_ ?_
  · rintro _ ⟨w, rfl⟩
    exact ⟨rfl, fun _ => rfl⟩
  · rintro s t h ⟨r, hr⟩
    exact h.step (rule_step hr)

theorem aligned_of_reachable (hs : (bank P).Reachable s) : Aligned s := by
  refine hs.invariant ?_ ?_
  · rintro _ ⟨w, rfl⟩
    refine ⟨fun hready => ?_, fun _ hfill => ?_, fun _ => ⟨rfl, rfl⟩,
      fun _ _ => ⟨Nat.zero_le _, rfl, rfl⟩⟩
    · cases hready
    · have hphase : (0 : BitVec 1) = 1 := hfill
      exact absurd hphase (by decide)
  · rintro s t h ⟨r, hr⟩
    exact h.step (rule_step hr)

theorem emitted_of_reachable (hburst : P.burstLength ≠ 1) (hs : (carefulBank P).Reachable s) :
    Emitted s := by
  refine hs.invariant ?_ ?_
  · rintro _ ⟨w, rfl⟩
    exact ⟨rfl, Nat.zero_le _, rfl, P.burstLength_pos, fun h => absurd rfl h,
      fun i hi => absurd hi (Nat.not_lt_zero i), fun h => absurd rfl h, rfl⟩
  · rintro s t h ⟨r, hr, hcareful⟩
    exact h.step hburst (rule_step hr) hcareful

/-! ### Pairing -/

/-- The `i`-th burst of a stream of beats. -/
def burst {α : Type} (B i : ℕ) (l : List α) : List α := (l.drop (B * i)).take B

/-- Writes and the data given for them reach the memory controller together. -/
structure Paired (s : Bank P) : Prop where
  /-- The controller sees requests in the order in which they were made. -/
  order : s.commands ++ s.syncRequestQ ++ s.commandQ = s.initRequests ++ s.userRequests
  /-- The beats that went out are those that were given, each once and in order. -/
  beats : s.beats.map Prod.fst = (s.initData ++ s.userData).take s.beats.length
  /-- The beats of every write went out with it, but those of the last may not all be out. -/
  count : s.beats.length + (if s.writeEmitIdx = 0 then 0 else P.burstLength - s.writeEmitIdx) =
    P.burstLength * writes s.commands
  /-- The burst of a write of the user is the one that the user gave for it, and its last beat has
  the mark. -/
  user : ∀ i, P.burstLength * (writes s.initRequests + i + 1) ≤ s.beats.length →
    burst P.burstLength (writes s.initRequests + i) s.beats =
      (burst P.burstLength i s.userData).mapIdx fun j d => (d, j == P.burstLength - 1)
  /-- No beat but the last of a burst has the mark. -/
  marked : ∀ n x, s.beats[n]? = some x → x.2 = (n % P.burstLength == P.burstLength - 1)

/-- A burst of what went out. -/
theorem burst_mapIdx {l : List (Beat P × Mask P)} {n i : ℕ} (h : P.burstLength * (i + 1) ≤ n) :
    burst P.burstLength i ((l.take n).mapIdx (mark P)) =
      (burst P.burstLength i l).mapIdx fun j d => (d, j == P.burstLength - 1) := by
  rw [Nat.mul_add, Nat.mul_one] at h
  apply List.ext_getElem?
  intro j
  rw [burst, burst]
  by_cases hj : j < P.burstLength
  · rw [List.getElem?_take_of_lt hj, List.getElem?_drop, List.getElem?_mapIdx,
      List.getElem?_take_of_lt (by omega), List.getElem?_mapIdx, List.getElem?_take_of_lt hj,
      List.getElem?_drop]
    congr 1
    funext d
    rw [mark, Nat.mul_add_mod, Nat.mod_eq_of_lt hj]
  · rw [List.getElem?_mapIdx, List.getElem?_take_eq_none (by omega),
      List.getElem?_take_eq_none (by omega)]
    rfl

/-- A burst of what the user gave, after whole bursts. -/
theorem burst_append {α : Type} {l l' : List α} {B n : ℕ} (h : l.length = B * n) (i : ℕ) :
    burst B (n + i) (l ++ l') = burst B i l' := by
  rw [burst, burst, Nat.mul_add, ← h, List.drop_length_add_append]

/-- **Write data pairing.** In every run whose steps are careful, the memory controller sees the
requests in order, and every write with the data that was given for it. -/
theorem write_pairing (hburst : 2 ≤ P.burstLength) (hs : (carefulBank P).Reachable s) :
    Paired s := by
  have hreach := reachable_of_careful hs
  have hrequested := requested_of_reachable hreach
  have hgiven := given_of_reachable hreach
  have haligned := aligned_of_reachable hreach
  have hemitted := emitted_of_reachable (by omega) hs
  have hbeats : s.beats = ((s.initData ++ s.userData).take s.beats.length).mapIdx (mark P) := by
    rw [← hgiven.order, List.take_append_of_le_length hemitted.beats_le]
    exact hemitted.marked
  refine ⟨hrequested.order, ?_, hemitted.beats, fun i hi => ?_, fun n x hx => ?_⟩
  · refine (congrArg (List.map Prod.fst) hbeats).trans ?_
    apply List.ext_getElem?
    intro n
    rw [List.getElem?_map, List.getElem?_mapIdx, Option.map_map]
    exact Option.map_id'
  · cases hstate : s.state with
    | init =>
      -- no write of the user is out
      have hle : writes s.commands ≤ writes s.initRequests := by
        rw [← hrequested.initial hstate, writes_append]
        omega
      have hmul := Nat.mul_le_mul_left P.burstLength hle
      have hcount := hemitted.beats
      rw [Nat.mul_add, Nat.mul_add, Nat.mul_one] at hi
      have hpos := P.burstLength_pos
      omega
    | ready =>
      rw [hbeats, burst_mapIdx hi, burst_append (haligned.ready hstate)]
  · rw [hbeats, List.getElem?_mapIdx] at hx
    obtain ⟨d, _, rfl⟩ := Option.map_eq_some_iff.mp hx
    rfl

/-! ### A stall between the beats of a write -/

/-- Bursts of some beats, and no initialisation of memory. -/
def burstsOf (n : ℕ) : Params where
  bytesPerBeat := 1
  wordsPerBeat := 1
  addressBits := 1
  burstLength := n + 1
  burstLength_pos := Nat.succ_pos n
  maxOutstandingReads := 1
  maxOutstandingReads_pos := Nat.one_pos
  initPatch := false

/-- A beat to be written. -/
def sample {n : ℕ} (i : ℕ) : Beat (burstsOf n) × Mask (burstsOf n) := (BitVec.ofNat 8 i, 0)

/-- A run of a bank whose registers held nothing. -/
theorem reachable_burstsOf {n : ℕ} (rs : List (Rule (burstsOf n))) {t : Bank (burstsOf n)}
    (h : rs.foldlM (fun s r => rule r s) (.started fun _ => (0, 0)) = some t) :
    (bank (burstsOf n)).Reachable t := by
  have hstart : (bank (burstsOf n)).Reachable (.started fun _ => (0, 0)) :=
    reachable_started ⟨_, rfl⟩ fun r _ _ _ hr => ⟨r, hr⟩
  refine hstart.run (fun r s t hr => ?_) h
  exact ⟨r, hr⟩

/-- A careful run. -/
theorem careful_burstsOf {n : ℕ} (rs : List (Rule (burstsOf n))) {t : Bank (burstsOf n)}
    (h : rs.foldlM (fun s r => if Careful r s then rule r s else none) (.started fun _ => (0, 0)) =
      some t) :
    (carefulBank (burstsOf n)).Reachable t := by
  have hstart : (carefulBank (burstsOf n)).Reachable (.started fun _ => (0, 0)) := by
    refine reachable_started ⟨_, rfl⟩ fun r s t hstarting hr => ⟨r, hr, ?_⟩
    cases r with
    | copyWriteData => cases hstarting
    | processWriteRequest1 => cases hstarting
    | _ => trivial
  refine hstart.run (fun r s t hr => ?_) h
  obtain ⟨hcareful, hrule⟩ := Option.ite_none_right_eq_some.mp hr
  exact ⟨r, hrule, hcareful⟩

/-- Without a stall a write of two beats goes out whole. -/
theorem write_pairing_burst : ∃ s : Bank (burstsOf 1), s.userData = [sample 0, sample 1] ∧
    s.beats = [(sample 0, false), (sample 1, true)] ∧ Paired s := by
  have hrun := careful_burstsOf (n := 1) [.initPhase0, .writeData (sample 0),
    .writeData (sample 1), .command (.write 0), .doWriteReq, .copyWriteData, .copyWriteData,
    .processWriteRequest0, .processWriteRequest1] rfl
  exact ⟨_, rfl, rfl, write_pairing (by decide) hrun⟩

/-- The second beat of a write waits for the memory controller. Meanwhile the two beats of the next
write come, and the second of these goes out in its place. -/
theorem write_overwritten : ∃ s : Bank (burstsOf 1), (bank (burstsOf 1)).Reachable s ∧
    s.userRequests = [.write 0] ∧ s.userData = [sample 0, sample 1, sample 2, sample 3] ∧
    s.beats = [(sample 0, false), (sample 3, true)] ∧ ¬ Paired s := by
  have hrun := reachable_burstsOf (n := 1) [.initPhase0, .writeData (sample 0),
    .writeData (sample 1), .writeData (sample 2), .writeData (sample 3), .command (.write 0),
    .doWriteReq, .copyWriteData, .copyWriteData, .processWriteRequest0, .copyWriteData,
    .copyWriteData, .processWriteRequest1] rfl
  refine ⟨_, hrun, rfl, rfl, rfl, fun h => ?_⟩
  have hbeats : [sample 0, sample 3] = [sample 0, sample 1] := h.beats
  exact absurd hbeats (by decide)

/-- The second of three beats has the mark of the end. -/
theorem middle_marked : ∃ s : Bank (burstsOf 2), (bank (burstsOf 2)).Reachable s ∧
    s.beats = [(sample 0, false), (sample 1, true)] ∧ ¬ Paired s := by
  have hrun := reachable_burstsOf (n := 2) [.initPhase0, .writeData (sample 0),
    .writeData (sample 1), .writeData (sample 2), .command (.write 0), .doWriteReq, .copyWriteData,
    .copyWriteData, .copyWriteData, .processWriteRequest0, .processWriteRequest1] rfl
  refine ⟨_, hrun, rfl, fun h => ?_⟩
  have hmark : true = (1 % 3 == 3 - 1) := h.marked 1 _ rfl
  exact absurd hmark (by decide)

end Dram

end LeapPlatforms
