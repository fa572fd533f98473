import LeapPlatforms.Foundation.TransitionSystem
import Mathlib.Algebra.Order.Ring.Nat
import Mathlib.Data.BitVec
import Mathlib.Tactic.Common

/-!
# LUT RAM that is loaded from a source

`mkLUTRAMWithGet` fills its memory from a source of streams, each with an end mark behind it. A
short stream is padded with zeros, and of a long one the rest is to be taken and dropped. A reset,
which the user may raise once the memory is full, asks for the next stream.

The drain goes the wrong way round: it goes on after an end mark and stops after a value, and a
reset stops it where it is. So the next load starts with the next stream only if no value was left
over, and the end mark is all that was taken when the reset comes.

The source has something to give in the clocks in which the environment says so. The drain goes
before a reset of the same clock.

## Main definitions

* `Source`, `LutRam`, `LutRam.clock` — the source and the module
* `Loading`, `loading` — the runs, with what was loaded
* `Loading.Drained` — the resets that find the source where the next stream starts

## Main results

* `Inv.fire` — one clock
* `lutRam_loads`
-/

namespace LeapPlatforms

namespace FpgaComponents

variable {n : ℕ} {α : Type}

/-! ### The source -/

/-- What `initFunc` still has to give. -/
structure Source (α : Type) where
  /-- Which stream it gives. -/
  stream : ℕ
  /-- The values of it that were not taken. -/
  rest : List α

/-- A source that is about to give a stream. -/
def Source.start (streams : ℕ → List α) (k : ℕ) : Source α := { stream := k, rest := streams k }

/-- `get`: a value, or an end mark, behind which the next stream starts. -/
def Source.get (streams : ℕ → List α) (s : Source α) : Option α × Source α :=
  match s.rest with
  | v :: rest => (some v, { s with rest := rest })
  | [] => (none, .start streams (s.stream + 1))

/-! ### The module -/

/-- `mkLUTRAMWithGet`. -/
structure LutRam (n : ℕ) (α : Type) where
  /-- `mem`. -/
  mem : BitVec n → α
  /-- `initialized_m`. -/
  initialized : Bool
  /-- `finishInit`. -/
  finishInit : Bool
  /-- `sinkInit`. -/
  sinkInit : Bool
  /-- `init_idx`. -/
  initIdx : BitVec n

/-- What happens around the module in one clock. -/
structure LutInput (n : ℕ) (α : Type) where
  /-- The source has something to give. -/
  ready : Bool
  /-- `upd` is called. -/
  upd : Option (BitVec n × α)
  /-- `reset` is called. -/
  reset : Bool

namespace LutRam

/-- After a hardware reset. -/
def start (mem : BitVec n → α) : LutRam n α where
  mem := mem
  initialized := false
  finishInit := false
  sinkInit := false
  initIdx := 0

/-- `initializing`, with what `get` returns. -/
def initializing (m : LutRam n α) : Option α → LutRam n α
  | some v =>
    { mem := Function.update m.mem m.initIdx v
      initialized := if m.initIdx = BitVec.allOnes n then true else m.initialized
      finishInit := m.finishInit
      sinkInit := if m.initIdx = BitVec.allOnes n then true else m.sinkInit
      initIdx := m.initIdx + 1 }
  | none => { m with finishInit := true }

/-- `zeroRemainder`. -/
def zeroRemainder [Zero α] (m : LutRam n α) : LutRam n α where
  mem := Function.update m.mem m.initIdx 0
  initialized := if m.initIdx = BitVec.allOnes n then true else m.initialized
  finishInit := if m.initIdx = BitVec.allOnes n then false else m.finishInit
  sinkInit := m.sinkInit
  initIdx := m.initIdx + 1

/-- `sink`, with what `get` returns. -/
def sink (m : LutRam n α) (item : Option α) : LutRam n α := { m with sinkInit := !item.isSome }

/-- `newReset`. -/
def newReset (m : LutRam n α) : LutRam n α :=
  { m with initialized := false, finishInit := false, sinkInit := false, initIdx := 0 }

/-- `doWrite`. -/
def doWrite (m : LutRam n α) : Option (BitVec n × α) → LutRam n α
  | some (addr, d) => { m with mem := Function.update m.mem addr d }
  | none => m

/-- A rule that calls `get` can fire. -/
def takes (m : LutRam n α) : Bool := if m.initialized then m.sinkInit else !m.finishInit

/-- One clock, with what `get` returns if it is called; the methods wait for `initialized_m`. -/
def clock [Zero α] (m : LutRam n α) (i : LutInput n α) (item : Option α) : Option (LutRam n α) :=
  if m.initialized then
    let drained := if m.takes && i.ready then m.sink item else m
    some (if i.reset then drained.newReset else drained.doWrite i.upd)
  else if i.upd.isSome ∨ i.reset = true then none
  else if m.finishInit then some m.zeroRemainder
  else some (if i.ready then m.initializing item else m)

end LutRam

/-! ### Runs -/

/-- The module with its source, and what was loaded. -/
structure Loading (n : ℕ) (α : Type) where
  /-- The module. -/
  ram : LutRam n α
  /-- The source. -/
  source : Source α
  /-- The loads that were asked for by a reset. -/
  resets : ℕ
  /-- What was in memory at the end of each load. -/
  loads : List (BitVec n → α)
  /-- The load and the stream of each value written. -/
  written : List (ℕ × ℕ)
  /-- The clocks since the memory was full in which the source had something to give. -/
  offered : ℕ

namespace Loading

variable (streams : ℕ → List α)

/-- After a hardware reset. -/
def start (mem : BitVec n → α) : Loading n α where
  ram := .start mem
  source := .start streams 0
  resets := 0
  loads := []
  written := []
  offered := 0

/-- One clock. -/
def fire [Zero α] (s : Loading n α) (i : LutInput n α) : Option (Loading n α) :=
  let taken := s.source.get streams
  (s.ram.clock i taken.1).map fun ram =>
    { ram := ram
      source := if s.ram.takes && i.ready then taken.2 else s.source
      resets := s.resets + i.reset.toNat
      loads := if !s.ram.initialized && ram.initialized then s.loads ++ [ram.mem] else s.loads
      written := if !s.ram.initialized && s.ram.takes && i.ready && taken.1.isSome then
          s.written ++ [(s.resets, s.source.stream)]
        else s.written
      offered := if s.ram.initialized && !i.reset then s.offered + i.ready.toNat else 0 }

/-- What a stream is in memory. -/
def contents [Zero α] (stream : List α) (a : BitVec n) : α := stream.getD a.toNat 0

/-- Each load is that of its stream. -/
structure Loads [Zero α] (s : Loading n α) : Prop where
  /-- There is a load for each reset, once it is complete. -/
  length_eq : s.loads.length = s.resets + s.ram.initialized.toNat
  /-- What is loaded is the stream, and zeros behind it. -/
  loads : ∀ k m, s.loads[k]? = some m → ∀ a, m a = contents (streams k) a
  /-- No value is written by the load of another stream. -/
  written : ∀ x ∈ s.written, x.1 = x.2

/-- A reset comes after a stream that leaves something of the memory to be padded, or after one
that just fills it, once the source has had one thing to give, with the clock of the reset. -/
def Drained (s : Loading n α) (i : LutInput n α) : Prop :=
  i.reset = true → (streams s.resets).length < 2 ^ n ∨
    (streams s.resets).length = 2 ^ n ∧ s.offered + i.ready.toNat = 1

end Loading

theorem Loading.Drained.of_no_reset {streams : ℕ → List α} {s : Loading n α} {i : LutInput n α}
    (h : i.reset = false) : Drained streams s i := by
  intro hreset
  rw [h] at hreset
  cases hreset

/-- The runs of the module, with some limit on what is done to it. -/
def loading [Zero α] (streams : ℕ → List α) (ok : Loading n α → LutInput n α → Prop) :
    TransitionSystem (Loading n α) where
  init s := ∃ mem, s = .start streams mem
  step s t := ∃ i, ok s i ∧ s.fire streams i = some t

/-! ### The phases of a load -/

section Phases

variable [Zero α] (streams : ℕ → List α)

/-- The words below the index are loaded. -/
def LoadedBelow (s : Loading n α) : Prop :=
  ∀ a : BitVec n, a.toNat < s.ram.initIdx.toNat →
    s.ram.mem a = Loading.contents (streams s.resets) a

/-- Values of the stream are written. -/
structure Filling (s : Loading n α) : Prop where
  initialized : s.ram.initialized = false
  finishInit : s.ram.finishInit = false
  sinkInit : s.ram.sinkInit = false
  /-- The values below the index were taken. -/
  source : s.source = { stream := s.resets
                        rest := (streams s.resets).drop s.ram.initIdx.toNat }
  initIdx : s.ram.initIdx.toNat ≤ (streams s.resets).length
  loaded : LoadedBelow streams s

/-- The stream is over, and zeros are written. -/
structure Padding (s : Loading n α) : Prop where
  initialized : s.ram.initialized = false
  finishInit : s.ram.finishInit = true
  sinkInit : s.ram.sinkInit = false
  source : s.source = .start streams (s.resets + 1)
  length_le : (streams s.resets).length ≤ s.ram.initIdx.toNat
  loaded : LoadedBelow streams s

/-- The memory is full, and was padded. -/
structure Padded (s : Loading n α) : Prop where
  initialized : s.ram.initialized = true
  sinkInit : s.ram.sinkInit = false
  source : s.source = .start streams (s.resets + 1)

/-- The memory is full of values, and the source gives what is behind them. -/
structure Draining (s : Loading n α) : Prop where
  initialized : s.ram.initialized = true
  le_length : 2 ^ n ≤ (streams s.resets).length
  /-- Nothing was taken. -/
  untouched : s.offered = 0 → s.ram.sinkInit = true ∧
    s.source = { stream := s.resets, rest := (streams s.resets).drop (2 ^ n) }
  /-- The end mark was taken. -/
  marked : s.offered = 1 → (streams s.resets).length = 2 ^ n →
    s.ram.sinkInit = true ∧ s.source = .start streams (s.resets + 1)

/-- The phases. -/
def Phase (s : Loading n α) : Prop :=
  Filling streams s ∨ Padding streams s ∨ Padded streams s ∨ Draining streams s

/-- What holds in a run. -/
structure Inv (s : Loading n α) : Prop where
  loads : s.Loads streams
  phase : Phase streams s

end Phases

/-! ### One clock -/

/-- The last index. -/
theorem eq_allOnes_iff {a : BitVec n} : a = BitVec.allOnes n ↔ a.toNat + 1 = 2 ^ n := by
  have hpos := Nat.two_pow_pos n
  rw [← BitVec.toNat_inj, BitVec.toNat_allOnes]
  omega

theorem toNat_add_one {a : BitVec n} (h : a ≠ BitVec.allOnes n) : (a + 1).toNat = a.toNat + 1 := by
  have hlt := a.isLt
  have hne := mt eq_allOnes_iff.mpr h
  have hone : (1 : BitVec n).toNat = 1 := by
    show 1 % 2 ^ n = 1
    exact Nat.mod_eq_of_lt (by omega)
  rw [BitVec.toNat_add, hone, Nat.mod_eq_of_lt (by omega)]

section Clock

variable [Zero α] {streams : ℕ → List α} {s t : Loading n α} {i : LutInput n α}

/-- One more word is loaded. -/
theorem LoadedBelow.update (h : LoadedBelow streams s) {v : α}
    (hv : v = Loading.contents (streams s.resets) s.ram.initIdx) {a : BitVec n}
    (ha : a.toNat ≤ s.ram.initIdx.toNat) :
    Function.update s.ram.mem s.ram.initIdx v a = Loading.contents (streams s.resets) a := by
  by_cases heq : a = s.ram.initIdx
  · rw [heq, Function.update_self, hv]
  · rw [Function.update_of_ne heq]
    refine h a (Nat.lt_of_le_of_ne ha fun hnat => heq ?_)
    exact BitVec.eq_of_toNat_eq hnat

/-- So the index can go on. -/
theorem LoadedBelow.next (h : LoadedBelow streams s) {v : α}
    (hv : v = Loading.contents (streams s.resets) s.ram.initIdx)
    (hlast : s.ram.initIdx ≠ BitVec.allOnes n)
    (hmem : t.ram.mem = Function.update s.ram.mem s.ram.initIdx v)
    (hidx : t.ram.initIdx = s.ram.initIdx + 1) (hresets : t.resets = s.resets) :
    LoadedBelow streams t := by
  intro a ha
  rw [hidx, toNat_add_one hlast] at ha
  rw [hmem, hresets]
  exact h.update hv (Nat.le_of_lt_succ ha)

theorem Loading.contents_of_lt {stream : List α} {a : BitVec n} (h : a.toNat < stream.length) :
    contents stream a = stream[a.toNat] := by
  rw [contents, List.getD_eq_getElem?_getD, List.getElem?_eq_getElem h, Option.getD_some]

theorem Loading.contents_of_le {stream : List α} {a : BitVec n} (h : stream.length ≤ a.toNat) :
    contents stream a = 0 := by
  rw [contents, List.getD_eq_getElem?_getD, List.getElem?_eq_none h, Option.getD_none]

/-- A load is complete. -/
theorem Loading.Loads.complete (h : s.Loads streams) (hinit : s.ram.initialized = false)
    (hram : t.ram.initialized = true) (hresets : t.resets = s.resets)
    (hloads : t.loads = s.loads ++ [t.ram.mem])
    (hmem : ∀ a, t.ram.mem a = contents (streams s.resets) a)
    (hwritten : ∀ x ∈ t.written, x.1 = x.2) : t.Loads streams := by
  have hlength := h.length_eq
  rw [hinit, Bool.toNat_false] at hlength
  refine ⟨?_, fun k m hk a => ?_, hwritten⟩
  · rw [hloads, hresets, hram, List.length_append, hlength]
    rfl
  · rw [hloads] at hk
    by_cases hlt : k < s.loads.length
    · rw [List.getElem?_append_left hlt] at hk
      exact h.loads k m hk a
    · rw [List.getElem?_append_right (by omega)] at hk
      obtain ⟨hk', rfl⟩ := List.getElem?_eq_some_iff.mp hk
      have hk'' : k = s.resets := by
        rw [List.length_singleton] at hk'
        omega
      rw [List.getElem_singleton, hk'']
      exact hmem a

/-- Nothing new is loaded. -/
theorem Loading.Loads.keep (h : s.Loads streams) (hlength : t.resets + t.ram.initialized.toNat =
    s.resets + s.ram.initialized.toNat) (hloads : t.loads = s.loads)
    (hwritten : ∀ x ∈ t.written, x.1 = x.2) : t.Loads streams := by
  refine ⟨?_, fun k m hk a => ?_, hwritten⟩
  · rw [hloads, hlength]
    exact h.length_eq
  · rw [hloads] at hk
    exact h.loads k m hk a

/-- A clock of a load. -/
theorem fire_of_not_initialized (hinit : s.ram.initialized = false)
    (ht : s.fire streams i = some t) : i.reset = false ∧
      t.ram = (if s.ram.finishInit then s.ram.zeroRemainder
        else if i.ready then s.ram.initializing (s.source.get streams).1 else s.ram) ∧
      t.source = (if !s.ram.finishInit && i.ready then (s.source.get streams).2 else s.source) ∧
      t.resets = s.resets ∧
      t.loads = (if t.ram.initialized then s.loads ++ [t.ram.mem] else s.loads) ∧
      t.written = (if !s.ram.finishInit && i.ready && (s.source.get streams).1.isSome then
        s.written ++ [(s.resets, s.source.stream)] else s.written) ∧ t.offered = 0 := by
  obtain ⟨ram, hclock, rfl⟩ := Option.map_eq_some_iff.mp ht
  rw [LutRam.clock, if_neg (by rw [hinit]; decide)] at hclock
  split at hclock
  · cases hclock
  · next hquiet =>
    have hreset : i.reset = false := by
      have hnot := (not_or.mp hquiet).2
      simpa using hnot
    have hram : ram = (if s.ram.finishInit then s.ram.zeroRemainder
        else if i.ready then s.ram.initializing (s.source.get streams).1 else s.ram) := by
      split at hclock
      · next hfinish => rw [if_pos hfinish]; exact (Option.some.inj hclock).symm
      · next hfinish => rw [if_neg hfinish]; exact (Option.some.inj hclock).symm
    refine ⟨hreset, hram, ?_⟩
    simp [hinit, hreset, LutRam.takes]

/-- A clock of filling in which the source has nothing to give. -/
theorem Filling.fire_idle (h : Filling streams s) (hs : s.Loads streams)
    (ht : s.fire streams i = some t) (hready : i.ready = false) : Inv streams t := by
  obtain ⟨_, hram, hsource, hresets, hloads, hwritten, _⟩ :=
    fire_of_not_initialized h.initialized ht
  rw [h.finishInit, hready] at hram hsource hwritten
  have hsame : t.ram = s.ram := hram
  have hloads' : t.loads = s.loads := by rw [hloads, hsame, h.initialized, if_neg (by decide)]
  refine ⟨hs.keep (by rw [hsame, hresets]) hloads' (by rw [hwritten]; exact hs.written),
    Or.inl ⟨?_, ?_, ?_, ?_, ?_, ?_⟩⟩
  · rw [hsame]
    exact h.initialized
  · rw [hsame]
    exact h.finishInit
  · rw [hsame]
    exact h.sinkInit
  · rw [hsource, hsame, hresets]
    exact h.source
  · rw [hsame, hresets]
    exact h.initIdx
  · intro a
    rw [hsame, hresets]
    exact h.loaded a

/-- The next value is written. -/
theorem Filling.fire_value (h : Filling streams s) (hs : s.Loads streams)
    (ht : s.fire streams i = some t) (hready : i.ready = true)
    (hlt : s.ram.initIdx.toNat < (streams s.resets).length) : Inv streams t := by
  obtain ⟨_, hram, hsource, hresets, hloads, hwritten, hoffered⟩ :=
    fire_of_not_initialized h.initialized ht
  rw [h.finishInit, hready] at hram hsource hwritten
  have hget : s.source.get streams = (some (streams s.resets)[s.ram.initIdx.toNat],
      { stream := s.resets, rest := (streams s.resets).drop (s.ram.initIdx.toNat + 1) }) := by
    rw [h.source, Source.get, List.drop_eq_getElem_cons hlt]
  have hvalue := (Loading.contents_of_lt hlt).symm
  rw [hget] at hram hsource hwritten
  have hwritten' : ∀ x ∈ t.written, x.1 = x.2 := by
    intro x hx
    rw [hwritten] at hx
    rcases List.mem_append.mp hx with hx | hx
    · exact hs.written x hx
    · rw [List.mem_singleton.mp hx, h.source]
  by_cases hlast : s.ram.initIdx = BitVec.allOnes n
  · have hidx := eq_allOnes_iff.mp hlast
    have hfull : t.ram.initialized = true := by
      rw [hram]
      exact if_pos hlast
    rw [if_pos hfull] at hloads
    refine ⟨hs.complete h.initialized hfull hresets hloads (fun a => ?_) hwritten', ?_⟩
    · have ha := a.isLt
      rw [hram]
      exact h.loaded.update hvalue (by omega)
    · refine Or.inr (Or.inr (Or.inr ⟨hfull, ?_, fun _ => ⟨?_, ?_⟩, fun hone => ?_⟩))
      · rw [hresets]
        omega
      · rw [hram]
        exact if_pos hlast
      · rw [hsource, hresets, ← hidx]
        rfl
      · rw [hoffered] at hone
        cases hone
  · have hidx := toNat_add_one hlast
    have hmore : t.ram.initialized = false := by
      rw [hram]
      exact (if_neg hlast).trans h.initialized
    rw [hmore, if_neg (by decide)] at hloads
    refine ⟨hs.keep (by rw [hmore, h.initialized, hresets]) hloads hwritten', Or.inl ?_⟩
    refine ⟨hmore, ?_, ?_, ?_, ?_, h.loaded.next hvalue hlast ?_ ?_ hresets⟩
    · rw [hram]
      exact h.finishInit
    · rw [hram]
      exact (if_neg hlast).trans h.sinkInit
    · rw [hsource, hresets, hram]
      show _ = Source.mk _ (List.drop (s.ram.initIdx + 1).toNat _)
      rw [hidx]
      rfl
    · rw [hresets, hram]
      show (s.ram.initIdx + 1).toNat ≤ _
      omega
    · rw [hram]
      rfl
    · rw [hram]
      rfl

/-- The end mark is taken. -/
theorem Filling.fire_mark (h : Filling streams s) (hs : s.Loads streams)
    (ht : s.fire streams i = some t) (hready : i.ready = true)
    (hle : (streams s.resets).length ≤ s.ram.initIdx.toNat) : Inv streams t := by
  obtain ⟨_, hram, hsource, hresets, hloads, hwritten, _⟩ :=
    fire_of_not_initialized h.initialized ht
  rw [h.finishInit, hready] at hram hsource hwritten
  have hget : s.source.get streams = (none, .start streams (s.resets + 1)) := by
    rw [h.source, Source.get, List.drop_eq_nil_of_le (hle)]
  rw [hget] at hram hsource hwritten
  have hmore : t.ram.initialized = false := by
    rw [hram]
    exact h.initialized
  rw [hmore, if_neg (by decide)] at hloads
  refine ⟨hs.keep (by rw [hmore, h.initialized, hresets]) hloads
    (by rw [hwritten]; exact hs.written), Or.inr (Or.inl ⟨hmore, ?_, ?_, ?_, ?_, ?_⟩)⟩
  · rw [hram]
    rfl
  · rw [hram]
    exact h.sinkInit
  · rw [hsource, hresets]
    rfl
  · rw [hresets, hram]
    exact hle
  · intro a
    rw [hresets, hram]
    exact h.loaded a

/-- **A clock of filling** takes the next value, or the end mark. -/
theorem Filling.fire (h : Filling streams s) (hs : s.Loads streams)
    (ht : s.fire streams i = some t) : Inv streams t := by
  cases hready : i.ready with
  | false => exact h.fire_idle hs ht hready
  | true =>
    by_cases hlt : s.ram.initIdx.toNat < (streams s.resets).length
    · exact h.fire_value hs ht hready hlt
    · exact h.fire_mark hs ht hready (Nat.le_of_not_lt hlt)

/-- **A clock of padding**. -/
theorem Padding.fire (h : Padding streams s) (hs : s.Loads streams)
    (ht : s.fire streams i = some t) : Inv streams t := by
  obtain ⟨_, hram, hsource, hresets, hloads, hwritten, hoffered⟩ :=
    fire_of_not_initialized h.initialized ht
  rw [h.finishInit] at hram hsource hwritten
  have hzero := (Loading.contents_of_le h.length_le).symm
  have hwritten' : ∀ x ∈ t.written, x.1 = x.2 := by
    rw [hwritten]
    exact hs.written
  by_cases hlast : s.ram.initIdx = BitVec.allOnes n
  · have hidx := eq_allOnes_iff.mp hlast
    have hfull : t.ram.initialized = true := by
      rw [hram]
      exact if_pos hlast
    rw [if_pos hfull] at hloads
    refine ⟨hs.complete h.initialized hfull hresets hloads (fun a => ?_) hwritten', ?_⟩
    · have ha := a.isLt
      rw [hram]
      exact h.loaded.update hzero (by omega)
    · refine Or.inr (Or.inr (Or.inl ⟨hfull, ?_, ?_⟩))
      · rw [hram]
        exact h.sinkInit
      · rw [hsource, hresets]
        exact h.source
  · have hidx := toNat_add_one hlast
    have hmore : t.ram.initialized = false := by
      rw [hram]
      exact (if_neg hlast).trans h.initialized
    rw [hmore, if_neg (by decide)] at hloads
    refine ⟨hs.keep (by rw [hmore, h.initialized, hresets]) hloads hwritten', Or.inr (Or.inl ?_)⟩
    refine ⟨hmore, ?_, ?_, ?_, ?_, h.loaded.next hzero hlast ?_ ?_ hresets⟩
    · rw [hram]
      exact (if_neg hlast).trans h.finishInit
    · rw [hram]
      exact h.sinkInit
    · rw [hsource, hresets]
      exact h.source
    · have hle := h.length_le
      rw [hresets, hram]
      show _ ≤ (s.ram.initIdx + 1).toNat
      omega
    · rw [hram]
      rfl
    · rw [hram]
      rfl

/-- A clock of use. -/
theorem fire_of_initialized (hinit : s.ram.initialized = true)
    (ht : s.fire streams i = some t) :
    t.ram = (if i.reset then
        (if s.ram.sinkInit && i.ready then s.ram.sink (s.source.get streams).1 else s.ram).newReset
      else (if s.ram.sinkInit && i.ready then s.ram.sink (s.source.get streams).1
        else s.ram).doWrite i.upd) ∧
      t.source = (if s.ram.sinkInit && i.ready then (s.source.get streams).2 else s.source) ∧
      t.resets = s.resets + i.reset.toNat ∧ t.loads = s.loads ∧ t.written = s.written ∧
      t.offered = (if i.reset then 0 else s.offered + i.ready.toNat) := by
  obtain ⟨ram, hclock, rfl⟩ := Option.map_eq_some_iff.mp ht
  rw [LutRam.clock, if_pos hinit, LutRam.takes, if_pos hinit] at hclock
  refine ⟨(Option.some.inj hclock).symm, ?_⟩
  cases hreset : i.reset <;> simp [hinit, LutRam.takes]

omit [Zero α] in
@[simp] theorem LutRam.initialized_doWrite (m : LutRam n α) (upd : Option (BitVec n × α)) :
    (m.doWrite upd).initialized = m.initialized := by
  cases upd <;> rfl

omit [Zero α] in
@[simp] theorem LutRam.sinkInit_doWrite (m : LutRam n α) (upd : Option (BitVec n × α)) :
    (m.doWrite upd).sinkInit = m.sinkInit := by
  cases upd <;> rfl

/-- **A reset** that finds the source at the next stream starts the next load. -/
theorem inv_of_reset (hinit : s.ram.initialized = true) (hs : s.Loads streams)
    (ht : s.fire streams i = some t) (hreset : i.reset = true)
    (hsource : t.source = .start streams (s.resets + 1)) : Inv streams t := by
  obtain ⟨hram, _, hresets, hloads, hwritten, _⟩ := fire_of_initialized hinit ht
  rw [if_pos hreset] at hram
  rw [hreset, Bool.toNat_true] at hresets
  have hstart : t.ram.initialized = false := by
    rw [hram]
    rfl
  have hidx : t.ram.initIdx.toNat = 0 := by
    rw [hram]
    exact Nat.zero_mod _
  refine ⟨hs.keep (by rw [hstart, hinit, hresets]; rfl) hloads
    (by rw [hwritten]; exact hs.written), Or.inl ⟨hstart, ?_, ?_, ?_, ?_, fun a ha => ?_⟩⟩
  · rw [hram]
    rfl
  · rw [hram]
    rfl
  · rw [hsource, hresets, hidx]
    rfl
  · rw [hidx]
    exact Nat.zero_le _
  · rw [hidx] at ha
    exact absurd ha (Nat.not_lt_zero _)

/-- Without a reset, nothing is loaded. -/
theorem loads_of_no_reset (hinit : s.ram.initialized = true) (hs : s.Loads streams)
    (ht : s.fire streams i = some t) (hreset : i.reset = false) :
    t.ram.initialized = true ∧ t.Loads streams := by
  obtain ⟨hram, _, hresets, hloads, hwritten, _⟩ := fire_of_initialized hinit ht
  rw [hreset, if_neg (by decide)] at hram
  have hfull : t.ram.initialized = true := by
    rw [hram, LutRam.initialized_doWrite, apply_ite LutRam.initialized, LutRam.sink, ite_self]
    exact hinit
  rw [hreset] at hresets
  exact ⟨hfull, hs.keep (by rw [hfull, hinit, hresets]; rfl) hloads
    (by rw [hwritten]; exact hs.written)⟩

/-- **A clock of use** after a stream that was padded. -/
theorem Padded.fire (h : Padded streams s) (hs : s.Loads streams)
    (ht : s.fire streams i = some t) : Inv streams t := by
  obtain ⟨hram, hsource, hresets, _, _, _⟩ := fire_of_initialized h.initialized ht
  rw [h.sinkInit, Bool.false_and, if_neg (by decide)] at hsource
  cases hreset : i.reset with
  | true => exact inv_of_reset h.initialized hs ht hreset (hsource.trans h.source)
  | false =>
    obtain ⟨hfull, hloads⟩ := loads_of_no_reset h.initialized hs ht hreset
    rw [hreset, if_neg (by decide), h.sinkInit, Bool.false_and, if_neg (by decide)] at hram
    refine ⟨hloads, Or.inr (Or.inr (Or.inl ⟨hfull, ?_, ?_⟩))⟩
    · rw [hram, LutRam.sinkInit_doWrite]
      exact h.sinkInit
    · rw [hsource, hresets, hreset]
      exact h.source

/-- **A clock of use** after a stream that filled the memory. -/
theorem Draining.fire (h : Draining streams s) (hs : s.Loads streams)
    (hok : Loading.Drained streams s i) (ht : s.fire streams i = some t) : Inv streams t := by
  obtain ⟨hram, hsource, hresets, _, _, hoffered⟩ := fire_of_initialized h.initialized ht
  have hle := h.le_length
  -- behind values that just fill the memory there is the end mark
  have hget : s.offered = 0 → (streams s.resets).length = 2 ^ n →
      s.source.get streams = (none, .start streams (s.resets + 1)) := by
    intro hzero hlength
    rw [(h.untouched hzero).2, Source.get, ← hlength, List.drop_length]
  cases hreset : i.reset with
  | true =>
    refine inv_of_reset h.initialized hs ht hreset ?_
    obtain hshort | ⟨hlength, hone⟩ := hok hreset
    · omega
    rw [hsource]
    cases hready : i.ready with
    | true =>
      rw [hready, Bool.toNat_true] at hone
      have hzero : s.offered = 0 := by omega
      rw [(h.untouched hzero).1, hget hzero hlength]
      rfl
    | false =>
      rw [hready, Bool.toNat_false] at hone
      rw [Bool.and_false, if_neg (by decide)]
      exact (h.marked hone hlength).2
  | false =>
    obtain ⟨hfull, hloads⟩ := loads_of_no_reset h.initialized hs ht hreset
    rw [hreset, if_neg (by decide)] at hram hoffered
    rw [hreset, Bool.toNat_false, Nat.add_zero] at hresets
    refine ⟨hloads, Or.inr (Or.inr (Or.inr ⟨hfull, ?_, fun hzero => ?_, fun hone hlength => ?_⟩))⟩
    · rw [hresets]
      exact hle
    · rw [hoffered] at hzero
      cases hready : i.ready with
      | true =>
        rw [hready, Bool.toNat_true] at hzero
        omega
      | false =>
        rw [hready, Bool.and_false, if_neg (by decide)] at hram hsource
        rw [hram, LutRam.sinkInit_doWrite, hsource, hresets]
        exact h.untouched (Nat.eq_zero_of_add_eq_zero_right hzero)
    · rw [hoffered] at hone
      rw [hresets] at hlength
      cases hready : i.ready with
      | true =>
        rw [hready, Bool.toNat_true] at hone
        have hzero : s.offered = 0 := by omega
        rw [(h.untouched hzero).1, hready, hget hzero hlength] at hram hsource
        rw [hram, LutRam.sinkInit_doWrite, hsource, hresets]
        exact ⟨rfl, rfl⟩
      | false =>
        rw [hready, Bool.and_false, if_neg (by decide)] at hram hsource
        rw [hready, Bool.toNat_false] at hone
        rw [hram, LutRam.sinkInit_doWrite, hsource, hresets]
        exact h.marked hone hlength

end Clock

/-! ### The runs -/

section Runs

variable [Zero α] {streams : ℕ → List α} {s t : Loading n α}

theorem inv_start (mem : BitVec n → α) : Inv streams (.start streams mem) := by
  have hidx : (0 : BitVec n).toNat = 0 := Nat.zero_mod _
  refine ⟨⟨rfl, fun k m hk => (by cases hk), fun x hx => (by cases hx)⟩,
    Or.inl ⟨rfl, rfl, rfl, ?_, ?_, fun a ha => ?_⟩⟩
  · show _ = Source.mk 0 ((streams 0).drop (0 : BitVec n).toNat)
    rw [hidx]
    rfl
  · show (0 : BitVec n).toNat ≤ _
    rw [hidx]
    exact Nat.zero_le _
  · have ha' : a.toNat < (0 : BitVec n).toNat := ha
    rw [hidx] at ha'
    exact absurd ha' (Nat.not_lt_zero _)

/-- **One clock.** -/
theorem Inv.fire (h : Inv streams s) {i : LutInput n α} (hok : Loading.Drained streams s i)
    (ht : s.fire streams i = some t) : Inv streams t := by
  rcases h.phase with hfilling | hpadding | hpadded | hdraining
  · exact hfilling.fire h.loads ht
  · exact hpadding.fire h.loads ht
  · exact hpadded.fire h.loads ht
  · exact hdraining.fire h.loads hok ht

/-- **Loads of a LUT RAM.** If each reset comes after a stream that is shorter than the memory, or
after one that just fills it, when of what is behind its values the end mark was taken and no more,
then every load is that of its own stream. -/
theorem lutRam_loads (streams : ℕ → List α)
    (hs : (loading streams (Loading.Drained streams)).Reachable s) : s.Loads streams := by
  have hinv : Inv streams s := by
    refine hs.invariant ?_ ?_
    · rintro s ⟨mem, rfl⟩
      exact inv_start mem
    · rintro s t h ⟨i, hok, ht⟩
      exact h.fire hok ht
  exact hinv.loads

/-- The source has something to give, and nothing is called. -/
def given : LutInput 1 ℕ := { ready := true, upd := none, reset := false }

/-- A reset, while the source has nothing to give. -/
def resetAlone : LutInput 1 ℕ := { ready := false, upd := none, reset := true }

/-- One value a stream. -/
def oneEach (k : ℕ) : List ℕ := [k + 1]

theorem lutRam_loads_oneEach : ∃ s : Loading 1 ℕ,
    s.loads.map (fun m => (m 0, m 1)) = [(1, 0), (2, 0)] ∧ s.Loads oneEach := by
  have h₀ : (loading oneEach (Loading.Drained oneEach)).Reachable
      (.start oneEach fun _ : BitVec 1 => 7) :=
    .init ⟨_, rfl⟩
  have h₁ := h₀.step ⟨given, .of_no_reset rfl, rfl⟩
  have h₂ := h₁.step ⟨given, .of_no_reset rfl, rfl⟩
  have h₃ := h₂.step ⟨given, .of_no_reset rfl, rfl⟩
  have h₄ := h₃.step ⟨resetAlone, fun _ => Or.inl (by decide), rfl⟩
  have h₅ := h₄.step ⟨given, .of_no_reset rfl, rfl⟩
  have h₆ := h₅.step ⟨given, .of_no_reset rfl, rfl⟩
  have h₇ := h₆.step ⟨given, .of_no_reset rfl, rfl⟩
  exact ⟨_, rfl, lutRam_loads oneEach h₇⟩

/-- Two values a stream: as many as there are words. -/
def twoEach (k : ℕ) : List ℕ := [2 * k + 1, 2 * k + 2]

/-- After a stream that fills the memory, the drain takes a value of the next one. -/
theorem not_lutRam_loads : ¬ ∀ (streams : ℕ → List ℕ) (s : Loading 1 ℕ),
    (loading streams fun _ _ => True).Reachable s → s.Loads streams := by
  intro h
  have h₀ : (loading twoEach fun _ _ => True).Reachable (.start twoEach fun _ : BitVec 1 => 7) :=
    .init ⟨_, rfl⟩
  have h₂ := (h₀.step ⟨given, trivial, rfl⟩).step ⟨given, trivial, rfl⟩
  -- the end mark, and a value of the next stream
  have h₄ := (h₂.step ⟨given, trivial, rfl⟩).step ⟨given, trivial, rfl⟩
  have h₅ := h₄.step ⟨resetAlone, trivial, rfl⟩
  have h₇ := (h₅.step ⟨given, trivial, rfl⟩).step ⟨given, trivial, rfl⟩
  have h₈ := h₇.step ⟨given, trivial, rfl⟩
  have hfirst : (4 : ℕ) = 3 := (h _ _ h₈).loads 1 _ rfl 0
  cases hfirst

end Runs

end FpgaComponents

end LeapPlatforms
