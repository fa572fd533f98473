import LeapPlatforms.Foundation.Ladder
import Mathlib.Logic.Basic

/-!
# The activation levels of a board

`activate` takes a board through its activation levels, and `deactivate` takes it back from the
level where it is. Both are switches whose cases fall through. Each case is a call of the kernel,
which may refuse, or an access to the board's registers, which takes that they are mapped.

## Main definitions

* `Pci` — what the kernel holds of a device, with its calls, and what the board's registers hold
* `Board`, `ActivationLevel`, `activate`, `deactivate`
* `heldAt` — what is held at a level
* `Holds`, `Settled` — a board at a level, and a board between two calls

## Main results

* `deactivate_spec`, `activate_spec`, `activate_probed_spec`
-/

namespace LeapPlatforms

namespace BlueNocPcie.Boards

open Ladder

/-! ### The kernel -/

/-- Where the kernel allocated a board's structure. -/
abbrev Address := ℕ

/-- The interrupts that a device was given: MSI-X or MSI, and the number. -/
structure Interrupts where
  msix : Bool
  irq : BitVec 32
  deriving DecidableEq

/-- What the kernel holds of a device for its driver, and the two registers that `activate` writes:
the one that runs the network, and the mask of the interrupt vector. -/
structure Pci where
  enableCount : ℕ := 0
  region : Bool := false
  mappings : ℕ := 0
  interrupts : Option Interrupts := none
  handler : Option (BitVec 32 × Address) := none
  master : Bool := false
  network : Bool := false
  vectorMasked : Bool := true
  deriving DecidableEq

/-! A call gives nothing where the kernel calls its use a bug. -/

namespace Pci

variable (p : Pci)

/-- An access to the mapped registers. -/
def access : Option Pci := if 0 < p.mappings ∧ 0 < p.enableCount then some p else none

def enableDevice : Pci := { p with enableCount := p.enableCount + 1 }

/-- The last of the calls clears the bus master too. -/
def disableDevice : Option Pci :=
  if 0 < p.enableCount then
    some { p with enableCount := p.enableCount - 1, master := p.enableCount ≠ 1 && p.master }
  else none

def releaseRegions : Option Pci := if p.region then some { p with region := false } else none

def iomap : Pci := { p with mappings := p.mappings + 1 }

def iounmap : Option Pci :=
  if 0 < p.mappings then some { p with mappings := p.mappings - 1 } else none

/-- `pci_enable_msi` and `pci_enable_msix`. -/
def enableInterrupts (i : Interrupts) : Option Pci :=
  if p.interrupts.isNone then some { p with interrupts := some i } else none

/-- `pci_disable_msix` and `pci_disable_msi`. It does nothing to interrupts of the other kind. -/
def disableInterrupts (msix : Bool) : Option Pci :=
  if p.handler.isSome then none
  else if p.interrupts.map Interrupts.msix = some msix then some { p with interrupts := none }
  else some p

def requestIrq (irq : BitVec 32) (dev : Address) : Option Pci :=
  if p.handler.isNone ∧ p.interrupts.map Interrupts.irq = some irq then
    some { p with handler := some (irq, dev) }
  else none

/-- `disable_irq` and `free_irq`. -/
def freeIrq (irq : BitVec 32) (dev : Address) : Option Pci :=
  if p.handler = some (irq, dev) then some { p with handler := none } else none

/-- `pci_set_master` and `pci_clear_master`. -/
def setMaster (on : Bool) : Option Pci :=
  if 0 < p.enableCount then some { p with master := on } else none

/-- `iowrite8` to the register at 257. -/
def writeNetwork (on : Bool) : Option Pci := p.access.map fun p => { p with network := on }

/-- `iowrite32` to the register at 16396. -/
def maskVector (masked : Bool) : Option Pci :=
  p.access.map fun p => { p with vectorMasked := masked }

end Pci

/-! ### The code -/

/-- The errors that the driver returns. -/
inductive Errno
  | ebusy
  | efault
  | einval
  | eio
  | enxio
  | enotty
  deriving DecidableEq

/-- The activation levels, in their order. -/
inductive ActivationLevel
  | probed
  | boardNumAssigned
  | pciDevEnabled
  | barsAllocated
  | barsMapped
  | magicMatch
  | dmaMaskSet
  | msiEnabled
  | irqAssigned
  | msixInitialized
  | pciBusMaster
  | bluenocActive
  deriving DecidableEq

def ActivationLevel.toNat : ActivationLevel → ℕ
  | probed => 0
  | boardNumAssigned => 1
  | pciDevEnabled => 2
  | barsAllocated => 3
  | barsMapped => 4
  | magicMatch => 5
  | dmaMaskSet => 6
  | msiEnabled => 7
  | irqAssigned => 8
  | msixInitialized => 9
  | pciBusMaster => 10
  | bluenocActive => 11

/-- `NUM_BOARDS`. -/
def numBoards : ℕ := 16

/-- `UNASSIGNED`. -/
def unassigned : ℕ := 0

/-- `EXPECTED_MAGIC`: the letters of `Bluespec`, the first the lowest. -/
def expectedMagic : BitVec 64 := 0x6365707365756C42

/-- What the driver keeps of the status of the DMA. -/
structure DmaStatus where
  readBuffersLevel : BitVec 5
  readFlushed : Bool
  readCompleted : Bool
  readQueueFull : Bool
  readOk : Bool
  writeBuffersLevel : BitVec 5
  writeCompleted : Bool
  writeQueueFull : Bool
  writeOk : Bool
  deriving DecidableEq

/-- `update_dma_buffer_status`: the fields, from what the register at 2048 holds. -/
def updateDmaBufferStatus (bufferStatus : BitVec 64) : DmaStatus where
  readBuffersLevel := bufferStatus.extractLsb' 0 5
  readFlushed := bufferStatus.getLsbD 5
  readCompleted := bufferStatus.getLsbD 6
  readQueueFull := bufferStatus.getLsbD 7
  readOk := bufferStatus.getLsbD 8
  writeBuffersLevel := bufferStatus.extractLsb' 32 5
  writeCompleted := bufferStatus.getLsbD 38
  writeQueueFull := bufferStatus.getLsbD 39
  writeOk := bufferStatus.getLsbD 40

/-- `tBoard`, as far as these calls use it. `bar0io` says whether the pointer is set. -/
structure Board (D : Type*) where
  address : Address
  pciDev : D
  boardNumber : ℕ
  bar0io : Bool
  majorRev : BitVec 32
  minorRev : BitVec 32
  build : BitVec 32
  timestamp : BitVec 32
  bytesPerBeat : BitVec 32
  contentId : BitVec 64
  magicNum : BitVec 64
  usesMsix : Bool
  irqNum : BitVec 32
  dma : DmaStatus
  activationLevel : ActivationLevel
  debugLevel : BitVec 32

/-- What the kernel and the board answer while a board is activated. -/
structure Answers where
  pciEnableDevice : Bool
  pciRequestRegion : Bool
  pciIomap : Bool
  magicNum : BitVec 64
  minorRev : BitVec 32
  majorRev : BitVec 32
  buildVersion : BitVec 32
  timestamp : BitVec 32
  nocParams : BitVec 32
  boardContentId : BitVec 64
  pciSetDmaMask : Bool
  bufferStatus : BitVec 64
  pciEnableMsi : Option (BitVec 32)
  pciEnableMsix : Option (BitVec 32)
  requestIrq : Bool

variable {D : Type*}

/-- A board with its device. -/
abbrev State (D : Type*) := Board D × Pci

/-- The board is at a level now. -/
def State.at (s : State D) (level : ActivationLevel) : State D :=
  ({ s.1 with activationLevel := level }, s.2)

/-- The cases of `deactivate`, the highest level first. -/
def deactivateCases : List (State D → Option (State D)) := [
  fun s => (s.2.writeNetwork false).map (s.1, ·),
  fun s => (s.2.setMaster false).map (s.1, ·),
  fun s => if s.1.usesMsix then (s.2.maskVector true).map (s.1, ·) else some s,
  fun s => (s.2.freeIrq s.1.irqNum s.1.address).map (s.1, ·),
  fun s => (s.2.disableInterrupts s.1.usesMsix).map (s.1, ·),
  some,
  some,
  fun s => if s.1.bar0io then s.2.iounmap.map (s.1, ·) else some s,
  fun s => s.2.releaseRegions.map (s.1, ·),
  fun s => s.2.disableDevice.map fun p => State.at (s.1, p) .boardNumAssigned]

/-- `deactivate`. The switch enters the cases at the board's level. -/
def deactivate (s : State D) : Option (State D) :=
  descend (deactivateCases.drop (ActivationLevel.bluenocActive.toNat - s.1.activationLevel.toNat)) s

/-- The first number that no board of the list has. -/
def freeBoardNumber (boardList : List (Board D)) : Option ℕ :=
  (List.range' 1 numBoards).find? fun n => !boardList.any (·.boardNumber == n)

/-- The cases of `activate`, the lowest level first. -/
def activateCases (boardList : List (Board D)) (k : Answers) :
    List (State D → Outcome Errno (State D)) := [
  fun s =>
    match freeBoardNumber boardList with
    | none => .refused .ebusy s
    | some n => .done (State.at ({ s.1 with boardNumber := n }, s.2) .boardNumAssigned),
  fun s =>
    if k.pciEnableDevice then .done (State.at (s.1, s.2.enableDevice) .pciDevEnabled)
    else .refused .efault s,
  fun s =>
    if k.pciRequestRegion && !s.2.region then
      .done (State.at (s.1, { s.2 with region := true }) .barsAllocated)
    else .refused .ebusy s,
  fun s =>
    if k.pciIomap then .done (State.at ({ s.1 with bar0io := true }, s.2.iomap) .barsMapped)
    else .refused .efault ({ s.1 with bar0io := false }, s.2),
  fun s =>
    match s.2.access with
    | none => .fault
    | some p =>
      if k.magicNum ≠ expectedMagic then .refused .einval ({ s.1 with magicNum := k.magicNum }, p)
      else
        .done (State.at ({ s.1 with
          magicNum := k.magicNum, majorRev := k.majorRev, minorRev := k.minorRev,
          build := k.buildVersion, timestamp := k.timestamp,
          bytesPerBeat := k.nocParams &&& 0xff, contentId := k.boardContentId }, p) .magicMatch),
  fun s =>
    if k.pciSetDmaMask then
      .ofOption (s.2.access.map fun p =>
        State.at ({ s.1 with dma := updateDmaBufferStatus k.bufferStatus }, p) .dmaMaskSet)
    else .refused .eio s,
  fun s =>
    match k.pciEnableMsi with
    | some irq =>
      .ofOption ((s.2.enableInterrupts ⟨false, irq⟩).map fun p =>
        State.at ({ s.1 with usesMsix := false, irqNum := irq }, p) .msiEnabled)
    | none =>
      match k.pciEnableMsix with
      | some vector =>
        .ofOption ((s.2.enableInterrupts ⟨true, vector⟩).map fun p =>
          State.at ({ s.1 with usesMsix := true, irqNum := vector }, p) .msiEnabled)
      | none => .refused .efault s,
  fun s =>
    if k.requestIrq then
      .ofOption ((s.2.requestIrq s.1.irqNum s.1.address).map fun p =>
        State.at (s.1, p) .irqAssigned)
    else .refused .ebusy s,
  fun s =>
    if s.1.usesMsix then
      .ofOption ((s.2.maskVector false).map fun p => State.at (s.1, p) .msixInitialized)
    else .done (s.at .msixInitialized),
  fun s => .ofOption ((s.2.setMaster true).map fun p => State.at (s.1, p) .pciBusMaster),
  fun s => .ofOption ((s.2.writeNetwork true).map fun p => State.at (s.1, p) .bluenocActive)]

/-- `activate`. The switch enters the cases at the board's level. -/
def activate (boardList : List (Board D)) (k : Answers) (s : State D) :
    Outcome Errno (State D) :=
  climb deactivate ((activateCases boardList k).drop s.1.activationLevel.toNat) s

/-! ### What is held at a level -/

/-- What is held for a board at a level. -/
def heldAt (level : ℕ) (b : Board D) : Pci where
  enableCount := if 2 ≤ level then 1 else 0
  region := 3 ≤ level
  mappings := if 4 ≤ level then 1 else 0
  interrupts := if 7 ≤ level then some ⟨b.usesMsix, b.irqNum⟩ else none
  handler := if 8 ≤ level then some (b.irqNum, b.address) else none
  vectorMasked := !(9 ≤ level && b.usesMsix)
  master := 10 ≤ level
  network := 11 ≤ level

/-- What neither `activate` nor `deactivate` changes, once the board has its number. -/
def Board.identity (b : Board D) : Address × D × ℕ :=
  (b.address, b.pciDev, b.boardNumber)

/-- What is held at a level is held, whatever level the board says. -/
structure Held (who : Address × D × ℕ) (level : ℕ) (s : State D) : Prop where
  pci : s.2 = heldAt level s.1
  identity : s.1.identity = who
  bar0io : 4 ≤ level → s.1.bar0io = true
  magicNum : 5 ≤ level → s.1.magicNum = expectedMagic

/-- The board is at a level, with what is held there. -/
structure Holds (who : Address × D × ℕ) (level : ℕ) (s : State D) : Prop
    extends Held who level s where
  numbered : 1 ≤ level
  atLevel : s.1.activationLevel.toNat = level

/-- A board between two calls: it is active and holds everything, or it holds nothing. -/
structure Settled (b : Board D) (p : Pci) : Prop where
  holds : Holds b.identity b.activationLevel.toNat (b, p)
  levels : b.activationLevel = .bluenocActive ∨ b.activationLevel = .boardNumAssigned

/-! ### Deactivation -/

variable {who : Address × D × ℕ} {s : State D} {b : Board D} {p : Pci}

/-- What is held while a board is deactivated. Its level is set by the last of the cases. -/
def Sinks (who : Address × D × ℕ) (level : ℕ) (s : State D) : Prop :=
  Held who level s ∧ (level = 1 → s.1.activationLevel = .boardNumAssigned)

/-- A case that changes what the kernel holds. -/
theorem falls_of_pci {level : ℕ} (h1 : 1 < level - 1)
    {case : State D → Option (State D)}
    (h : ∀ b : Board D, (4 ≤ level → b.bar0io = true) →
      case (b, heldAt level b) = some (b, heldAt (level - 1) b)) :
    Falls (Sinks who) level case := by
  rintro ⟨b, p⟩ ⟨⟨hp, hwho, hbar, hmagic⟩, -⟩
  obtain rfl : p = heldAt level b := hp
  refine ⟨_, h b hbar, ⟨rfl, hwho, fun h4 => hbar (by omega), fun h5 => hmagic (by omega)⟩, ?_⟩
  intro h1'
  omega

theorem deactivateCases_falls : FallsFrom (Sinks who) 11 (deactivateCases (D := D)) := by
  refine ⟨falls_of_pci (by decide) ?_, falls_of_pci (by decide) ?_, falls_of_pci (by decide) ?_,
    falls_of_pci (by decide) ?_, falls_of_pci (by decide) ?_, falls_of_pci (by decide) ?_,
    falls_of_pci (by decide) ?_, falls_of_pci (by decide) ?_, falls_of_pci (by decide) ?_, ?_,
    trivial⟩
  · intro b _
    simp [heldAt, Pci.writeNetwork, Pci.access]
  · intro b _
    simp [heldAt, Pci.setMaster]
  · intro b _
    by_cases hm : b.usesMsix <;> simp [heldAt, Pci.maskVector, Pci.access, hm]
  · intro b _
    simp [heldAt, Pci.freeIrq]
  · intro b _
    simp [heldAt, Pci.disableInterrupts]
  · intro b _
    rfl
  · intro b _
    rfl
  · intro b hbar
    simp [heldAt, Pci.iounmap, hbar]
  · intro b _
    simp [heldAt, Pci.releaseRegions]
  · rintro ⟨b, p⟩ ⟨⟨hp, hwho, -, -⟩, -⟩
    obtain rfl : p = heldAt 2 b := hp
    refine ⟨_, rfl, ⟨rfl, hwho, ?_, ?_⟩, fun _ => rfl⟩
    · intro h
      simp at h
    · intro h
      simp at h

theorem ActivationLevel.toNat_le (level : ActivationLevel) : level.toNat ≤ 11 := by
  cases level <;> decide

/-- **Deactivation.** From every level on, everything is released. -/
theorem deactivate_spec : Releases (Holds who) (Holds (D := D) who 1) deactivate := by
  intro level s hs
  have hle : level ≤ 11 := hs.atLevel ▸ s.1.activationLevel.toNat_le
  have hsinks : Sinks who level s := by
    refine ⟨hs.toHeld, fun h1 => ?_⟩
    have := hs.atLevel
    revert this
    rw [h1]
    cases s.1.activationLevel <;> simp [ActivationLevel.toNat]
  have hfalls : FallsFrom (Sinks who) 11 (deactivateCases (D := D)) := deactivateCases_falls
  have hcases := hfalls.drop (11 - level)
  rw [Nat.sub_sub_self hle] at hcases
  obtain ⟨s', hs', hheld, hlevel⟩ := descend_spec hcases hsinks
  have hone : level - ((deactivateCases (D := D)).drop (11 - level)).length = 1 := by
    have hnum := hs.numbered
    rw [List.length_drop, show (deactivateCases (D := D)).length = 10 from rfl]
    omega
  rw [hone] at hheld hlevel
  refine ⟨s', ?_, hheld, Nat.le_refl 1, ?_⟩
  · rw [deactivate, hs.atLevel]
    exact hs'
  · rw [hlevel rfl]
    rfl

/-! ### Activation -/

/-- The cases after the one that assigns the number. -/
theorem activateCases_rises (boardList : List (Board D)) (k : Answers) :
    RisesFrom (Holds who) 1 ((activateCases boardList k).drop 1) := by
  refine ⟨?_, ?_, ?_, ?_, ?_, ?_, ?_, ?_, ?_, ?_, trivial⟩
  all_goals
    rintro ⟨b, p⟩ ⟨⟨hp, hwho, hbar, hmagic⟩, -, hlevel⟩
    obtain rfl : p = heldAt _ b := hp
  · by_cases hk : k.pciEnableDevice
    · refine .inl ⟨_, if_pos hk, ⟨rfl, hwho, ?_, ?_⟩, by decide, rfl⟩ <;> intro h <;> simp at h
    · exact .inr ⟨_, _, if_neg hk, ⟨rfl, hwho, hbar, hmagic⟩, by decide, hlevel⟩
  · by_cases hk : k.pciRequestRegion
    · refine .inl ⟨_, if_pos (by simp [hk, heldAt]), ⟨rfl, hwho, ?_, ?_⟩, by decide, rfl⟩ <;>
        intro h <;> simp at h
    · exact .inr ⟨_, _, if_neg (by simp [hk]), ⟨rfl, hwho, hbar, hmagic⟩, by decide, hlevel⟩
  · by_cases hk : k.pciIomap
    · refine .inl ⟨_, if_pos hk, ⟨rfl, hwho, fun _ => rfl, ?_⟩, by decide, rfl⟩
      intro h
      simp at h
    · refine .inr ⟨_, _, if_neg hk, ⟨rfl, hwho, ?_, ?_⟩, by decide, hlevel⟩
      all_goals
        intro h
        simp at h
  · by_cases hk : k.magicNum = expectedMagic
    · refine .inl ⟨_, if_neg (not_not.mpr hk), ⟨rfl, hwho, fun _ => hbar (by decide), ?_⟩,
        by decide, rfl⟩
      exact fun _ => hk
    · refine .inr ⟨_, _, if_pos hk, ⟨rfl, hwho, hbar, ?_⟩, by decide, hlevel⟩
      intro h
      simp at h
  · by_cases hk : k.pciSetDmaMask
    · exact .inl ⟨_, if_pos hk, ⟨rfl, hwho, fun _ => hbar (by decide),
        fun _ => hmagic (by decide)⟩, by decide, rfl⟩
    · exact .inr ⟨_, _, if_neg hk, ⟨rfl, hwho, hbar, hmagic⟩, by decide, hlevel⟩
  · rcases k.pciEnableMsi with _ | irq
    · rcases k.pciEnableMsix with _ | vector
      · exact .inr ⟨_, _, rfl, ⟨rfl, hwho, hbar, hmagic⟩, by decide, hlevel⟩
      · let b' : Board D := { b with usesMsix := true, irqNum := vector }
        exact .inl ⟨State.at (b', heldAt 7 b') .msiEnabled, rfl, ⟨rfl, hwho,
          fun _ => hbar (by decide), fun _ => hmagic (by decide)⟩, by decide, rfl⟩
    · let b' : Board D := { b with usesMsix := false, irqNum := irq }
      exact .inl ⟨State.at (b', heldAt 7 b') .msiEnabled, rfl, ⟨rfl, hwho,
        fun _ => hbar (by decide), fun _ => hmagic (by decide)⟩, by decide, rfl⟩
  · by_cases hk : k.requestIrq
    · refine .inl ⟨State.at (b, heldAt 8 b) .irqAssigned, ?_, ⟨rfl, hwho, fun _ => hbar (by decide),
        fun _ => hmagic (by decide)⟩, by decide, rfl⟩
      simp [hk, heldAt, Pci.requestIrq, Outcome.ofOption]
    · exact .inr ⟨_, _, if_neg hk, ⟨rfl, hwho, hbar, hmagic⟩, by decide, hlevel⟩
  · refine .inl ⟨State.at (b, heldAt 9 b) .msixInitialized, ?_, ⟨rfl, hwho,
      fun _ => hbar (by decide), fun _ => hmagic (by decide)⟩, by decide, rfl⟩
    by_cases hm : b.usesMsix <;>
      simp [hm, heldAt, Pci.maskVector, Pci.access, State.at, Outcome.ofOption]
  · exact .inl ⟨State.at (b, heldAt 10 b) .pciBusMaster, rfl, ⟨rfl, hwho,
      fun _ => hbar (by decide), fun _ => hmagic (by decide)⟩, by decide, rfl⟩
  · exact .inl ⟨State.at (b, heldAt 11 b) .bluenocActive, rfl, ⟨rfl, hwho,
      fun _ => hbar (by decide), fun _ => hmagic (by decide)⟩, by decide, rfl⟩

/-- **Activation** of a board that has its number: it is active, or nothing is held. -/
theorem activate_spec (boardList : List (Board D)) (k : Answers) {level : ℕ}
    (hs : Holds who level s) :
    (∃ s', activate boardList k s = .done s' ∧ Holds who 11 s') ∨
      ∃ e s', activate boardList k s = .refused e s' ∧ Holds who 1 s' := by
  have hle : level ≤ 11 := hs.atLevel ▸ s.1.activationLevel.toNat_le
  have hnum := hs.numbered
  have hrises : RisesFrom (Holds who) 1 ((activateCases boardList k).drop 1) :=
    activateCases_rises boardList k
  have hcases := hrises.drop (level - 1)
  rw [List.drop_drop, Nat.add_sub_of_le hnum] at hcases
  have hspec := climb_spec deactivate_spec hcases hs
  have htop : level + ((activateCases boardList k).drop level).length = 11 := by
    rw [List.length_drop, show (activateCases boardList k).length = 11 from rfl]
    omega
  rw [htop] at hspec
  rw [activate, hs.atLevel]
  exact hspec

/-- **Activation** of a board that was probed. Without a free number it is left as it is. -/
theorem activate_probed_spec (boardList : List (Board D)) (k : Answers)
    (hlevel : b.activationLevel = .probed) :
    (freeBoardNumber boardList = none ∧ activate boardList k (b, {}) = .refused .ebusy (b, {})) ∨
      ∃ n, freeBoardNumber boardList = some n ∧
        ((∃ s', activate boardList k (b, {}) = .done s' ∧
          Holds (b.address, b.pciDev, n) 11 s') ∨
        ∃ e s', activate boardList k (b, {}) = .refused e s' ∧
          Holds (b.address, b.pciDev, n) 1 s') := by
  rcases hfree : freeBoardNumber boardList with _ | n
  · refine .inl ⟨rfl, ?_⟩
    simp only [activate, hlevel, activateCases, ActivationLevel.toNat, List.drop_zero, climb, hfree,
      deactivate]
    rfl
  · refine .inr ⟨n, rfl, ?_⟩
    have hs : Holds (b.address, b.pciDev, n) 1
        (State.at ({ b with boardNumber := n }, {}) .boardNumAssigned) := by
      refine ⟨⟨rfl, rfl, ?_, ?_⟩, Nat.le_refl 1, rfl⟩ <;> intro h <;> simp at h
    have hstep : activate boardList k (b, {}) =
        activate boardList k (State.at ({ b with boardNumber := n }, {}) .boardNumAssigned) := by
      simp only [activate, hlevel, activateCases, ActivationLevel.toNat, List.drop_zero, climb,
        hfree]
      rfl
    rw [hstep]
    exact activate_spec boardList k hs

/-- A number that no board has is found, as long as there is one. -/
theorem freeBoardNumber_spec {boardList : List (Board D)} {n : ℕ}
    (h : freeBoardNumber boardList = some n) :
    (1 ≤ n ∧ n ≤ numBoards) ∧ ∀ b ∈ boardList, b.boardNumber ≠ n := by
  have hmem := List.mem_range'_1.mp (List.mem_of_find?_eq_some h)
  refine ⟨⟨hmem.1, by omega⟩, fun b hb hbn => ?_⟩
  have hany := List.find?_some h
  simp only [Bool.not_eq_true', List.any_eq_false, beq_iff_eq] at hany
  exact hany b hb hbn

end BlueNocPcie.Boards

end LeapPlatforms
