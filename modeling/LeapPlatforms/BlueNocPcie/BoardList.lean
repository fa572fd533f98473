import LeapPlatforms.BlueNocPcie.Activation
import LeapPlatforms.Foundation.TransitionSystem
import Mathlib.Data.List.Nodup
import Mathlib.Logic.Function.Basic

/-!
# The boards of the driver

The driver keeps its boards in a list, from `bluenoc_probe` to `bluenoc_remove`. In between a board
can be taken down and up again through its device file. What the calls on a file take for granted is
that the board is still there; and most commands that access its registers, that it is active.

## Main definitions

* `Driver`, `Action`, `Driver.next` — the driver, and its calls
* `Enabled`, `boards` — the calls that the kernel makes, and the runs
* `Driver.Inv` — who owns what
* `Misused` — the calls that the driver does not survive

## Main results

* `Driver.Inv.next` — the step lemma
* `boards_sound` — the invariant and the misused calls, over every run
-/

namespace LeapPlatforms

namespace BlueNocPcie.Boards

open Ladder

/-! ### The code -/

variable {D : Type*}

/-- The driver: its boards and its class, and what the kernel has of it. -/
structure Driver (D : Type*) where
  boardList : List (Board D) := []
  bluenocClass : Bool := false
  /-- The device files. -/
  nodes : ℕ → Bool := fun _ => false
  /-- What is held for each of the devices. -/
  pci : D → Pci := fun _ => {}
  /-- The devices that the driver has. -/
  bound : List D := []
  /-- The open files: for each the board that it points to. -/
  files : List Address := []

/-- The commands of `bluenoc_ioctl`. -/
inductive Command
  | identify
  | softReset
  | deactivate
  | reactivate
  | getDebugLevel
  | setDebugLevel
  | getStatus
  | clkRdWord
  | clkGetStatus
  | clkClrWord
  | clkSendCtrl
  | capabilities
  | unknown
  deriving DecidableEq

/-- What a command finds: whether its argument passes `access_ok`, what the user has there, what the
board's register holds, the ids of the device, and what is answered to `activate`. -/
structure World where
  accessOk : Bool
  user : Option (BitVec 64)
  register : BitVec 32
  subvendorId : BitVec 16
  subdeviceId : BitVec 16
  answers : Answers

/-- `tDMAClearReason`. -/
inductive DmaClearReason
  | startRead
  | startWrite
  deriving DecidableEq

/-- `clear_dma_status`. -/
def clearDmaStatus : DmaClearReason → DmaStatus → DmaStatus
  | .startRead, d => { d with readFlushed := false, readCompleted := false, readOk := false }
  | .startWrite, d => { d with writeCompleted := false, writeOk := false }

/-- `tBoardInfo`. -/
structure BoardInfo where
  isActive : Bool
  boardNumber : ℕ
  majorRev : BitVec 32
  minorRev : BitVec 32
  build : BitVec 32
  timestamp : BitVec 32
  bytesPerBeat : BitVec 32
  contentId : BitVec 64
  subvendorId : BitVec 16
  subdeviceId : BitVec 16

/-- What a call returns. -/
inductive Reply
  | ok
  | err (e : Errno)
  | info (i : BoardInfo)
  | value (v : BitVec 64)
  | poll (error readable writable : Bool)

/-- The calls of the kernel. A probe comes with the structure that `kmalloc` gives, and a transfer
is a read or a write up to where its pages are mapped. -/
inductive Action (D : Type*)
  | probe (dev : D) (vendor device : BitVec 16) (raw : Option (Board D)) (k : Answers)
      (cdevAdd : Bool)
  | remove (dev : D)
  | openFile (number : ℕ)
  | release (file : Address)
  | transfer (file : Address) (reason : DmaClearReason) (count : ℕ)
  | poll (file : Address)
  | ioctl (file : Address) (cmd : Command) (w : World)
  | interrupt (dev : D) (bufferStatus : BitVec 64)

/-- `BLUESPEC_VENDOR_ID`. -/
def bluespecVendorId : BitVec 16 := 0x1be7

/-- `BLUESPEC_NOC_DEVICE_ID`. -/
def bluespecNocDeviceId : BitVec 16 := 0xb100

namespace Driver

variable [DecidableEq D] (s : Driver D)

/-- The board at an address, unless it was freed. -/
def find (a : Address) : Option (Board D) := s.boardList.find? (·.address == a)

/-- A board with its device, after a call. -/
def put (x : State D) : Driver D :=
  { s with
    boardList := s.boardList.map fun b => if b.address = x.1.address then x.1 else b
    pci := Function.update s.pci x.1.pciDev x.2 }

/-- `bluenoc_probe`. -/
def probe (dev : D) (vendor device : BitVec 16) (raw : Option (Board D)) (k : Answers)
    (cdevAdd : Bool) : Option (Driver D × Reply) :=
  if vendor ≠ bluespecVendorId ∨ device ≠ bluespecNocDeviceId then some (s, .err .einval) else
    match raw with
    | none => some (s, .err .einval)
    | some raw =>
      let board : Board D := { raw with
        activationLevel := .probed, pciDev := dev, boardNumber := unassigned, debugLevel := 0 }
      let s := { s with bluenocClass := true }
      match activate (board :: s.boardList) k (board, s.pci dev) with
      | .fault => none
      | .refused e (_, p) => some ({ s with pci := Function.update s.pci dev p }, .err e)
      | .done (b, p) =>
        if cdevAdd then
          some ({ s with
            boardList := b :: s.boardList
            pci := Function.update s.pci dev p
            nodes := Function.update s.nodes b.boardNumber true
            bound := dev :: s.bound }, .ok)
        else
          (deactivate (b, p)).map fun x =>
            ({ s with pci := Function.update s.pci dev x.2 }, .err .efault)

/-- `bluenoc_remove`. -/
def remove (dev : D) : Option (Driver D × Reply) :=
  match s.boardList.find? (·.pciDev == dev) with
  | none => some ({ s with bound := s.bound.filter (· ≠ dev) }, .ok)
  | some b =>
    (deactivate (b, s.pci dev)).map fun x =>
      let boardList := s.boardList.filter (·.pciDev ≠ dev)
      ({ s with
        boardList
        pci := Function.update s.pci dev x.2
        nodes := Function.update s.nodes b.boardNumber false
        bound := s.bound.filter (· ≠ dev)
        bluenocClass := s.bluenocClass && !boardList.isEmpty }, .ok)

/-- `bluenoc_open`. -/
def openFile (number : ℕ) : Driver D × Reply :=
  match s.boardList.find? (·.boardNumber == number) with
  | none => (s, .err .enxio)
  | some b => ({ s with files := b.address :: s.files }, .ok)

/-- `bluenoc_read` and `bluenoc_write`, up to where the transfer starts. -/
def transfer (b : Board D) (reason : DmaClearReason) (count : ℕ) : Option (Driver D × Reply) :=
  if b.activationLevel ≠ .bluenocActive then some (s, .err .eio)
  else if count = 0 then some (s, .ok)
  else (s.pci b.pciDev).access.map fun p =>
    (s.put ({ b with dma := clearDmaStatus reason b.dma }, p), .ok)

/-- `bluenoc_poll`. -/
def pollFile (b : Board D) : Reply :=
  if b.magicNum ≠ expectedMagic then .poll true false false
  else if b.activationLevel ≠ .bluenocActive then .poll false false false
  else .poll false b.dma.readOk b.dma.writeOk

/-- The board that a command is for, after the command. -/
def after (o : Option (State D)) : Option (Driver D × Reply) := o.map fun x => (s.put x, .ok)

/-- A command that accesses one of the registers and changes nothing of the driver's. -/
def registerCommand (b : Board D) (reply : Reply) : Option (Driver D × Reply) :=
  (s.pci b.pciDev).access.map fun _ => (s, reply)

/-- A value that is copied to the user. -/
def copyOut (w : World) (reply : Reply) : Reply :=
  if w.user.isSome then reply else .err .efault

/-- The switch of `bluenoc_ioctl`, for a board that is there. -/
def command (b : Board D) (w : World) : Command → Option (Driver D × Reply)
  | .identify => some (s, copyOut w (.info {
      isActive := b.activationLevel = .bluenocActive, boardNumber := b.boardNumber,
      majorRev := b.majorRev, minorRev := b.minorRev, build := b.build, timestamp := b.timestamp,
      bytesPerBeat := b.bytesPerBeat, contentId := b.contentId,
      subvendorId := w.subvendorId, subdeviceId := w.subdeviceId }))
  | .softReset =>
    if b.activationLevel = .bluenocActive then
      s.after (((s.pci b.pciDev).writeNetwork false).bind fun p =>
        (p.writeNetwork true).map (b, ·))
    else some (s, .ok)
  | .deactivate => s.after (Boards.deactivate (b, s.pci b.pciDev))
  | .reactivate =>
    match activate s.boardList w.answers (b, s.pci b.pciDev) with
    | .done x => some (s.put x, .ok)
    | .refused _ x => some (s.put x, .ok)
    | .fault => none
  | .getDebugLevel => some (s, copyOut w (.value (b.debugLevel.setWidth 64)))
  | .setDebugLevel =>
    match w.user with
    -- what cannot be read is read as zero
    | none => some (s.put ({ b with debugLevel := 0 }, s.pci b.pciDev), .err .efault)
    | some v => some (s.put ({ b with debugLevel := v.setWidth 32 }, s.pci b.pciDev), .ok)
  | .getStatus => s.registerCommand b (copyOut w (.value (w.register.setWidth 64)))
  | .clkRdWord => s.registerCommand b (copyOut w (.value (w.register.setWidth 64)))
  | .clkGetStatus => s.registerCommand b (copyOut w (.value (w.register.setWidth 64)))
  | .clkClrWord => s.registerCommand b .ok
  | .clkSendCtrl => s.registerCommand b .ok
  | .capabilities => s.registerCommand b (copyOut w (.value (w.register.setWidth 64)))
  | .unknown => some (s, .err .enotty)

end Driver

/-- The commands that have an argument. -/
def Command.copies : Command → Bool
  | .softReset | .deactivate | .reactivate | .unknown => false
  | _ => true

/-- The commands that read their argument before they use the board. -/
def Command.readsFirst : Command → Bool
  | .clkClrWord | .clkSendCtrl => true
  | _ => false

/-- The error of a command that returns before it uses the board. -/
def Command.check (cmd : Command) (w : World) : Option Errno :=
  if cmd = .unknown then some .enotty
  else if cmd.copies && !w.accessOk then some .efault
  else if cmd.readsFirst && w.user.isNone then some .efault
  else none

namespace Driver

variable [DecidableEq D] (s : Driver D)

/-- `bluenoc_ioctl`. -/
def ioctl (file : Address) (cmd : Command) (w : World) : Option (Driver D × Reply) :=
  match cmd.check w with
  | some e => some (s, .err e)
  | none => (s.find file).bind fun b => s.command b w cmd

/-- `intr_handler`, for the device whose interrupt it is. -/
def interrupt (dev : D) (bufferStatus : BitVec 64) : Option (Driver D × Reply) :=
  match (s.pci dev).handler with
  | none => some (s, .ok)
  | some (_, a) => (s.find a).bind fun b => (s.pci b.pciDev).access.map fun p =>
      (s.put ({ b with dma := updateDmaBufferStatus bufferStatus }, p), .ok)

/-- A call. It gives nothing when the driver does not survive it. -/
def next : Action D → Option (Driver D × Reply)
  | .probe dev vendor device raw k cdevAdd => s.probe dev vendor device raw k cdevAdd
  | .remove dev => s.remove dev
  | .openFile number => some (s.openFile number)
  | .release file => (s.find file).map fun _ => ({ s with files := s.files.erase file }, .ok)
  | .transfer file reason count => (s.find file).bind fun b => s.transfer b reason count
  | .poll file => (s.find file).map fun b => (s, pollFile b)
  | .ioctl file cmd w => s.ioctl file cmd w
  | .interrupt dev bufferStatus => s.interrupt dev bufferStatus

end Driver

/-- The calls that the kernel makes: a device is probed when the driver does not have it and removed
when it has, memory is given that is free, and the calls on files are on open ones. -/
def Enabled (s : Driver D) : Action D → Prop
  | .probe dev _ _ raw _ _ => dev ∉ s.bound ∧ ∀ b ∈ raw, ∀ c ∈ s.boardList, c.address ≠ b.address
  | .remove dev => dev ∈ s.bound
  | .openFile _ => True
  | .release file => file ∈ s.files
  | .transfer file _ _ => file ∈ s.files
  | .poll file => file ∈ s.files
  | .ioctl file _ _ => file ∈ s.files
  | .interrupt dev _ => (s.pci dev).handler.isSome

/-- The runs of the driver. -/
def boards (D : Type*) [DecidableEq D] : TransitionSystem (Driver D) where
  init s := s = {}
  step s t := ∃ a r, Enabled s a ∧ s.next a = some (t, r)

/-! ### The invariant -/

/-- Each board of the list has its own structure, device and number; it is active and holds
everything, or it holds nothing; and nothing else is held. -/
structure Driver.Inv (s : Driver D) : Prop where
  addresses : (s.boardList.map Board.address).Nodup
  devices : (s.boardList.map Board.pciDev).Nodup
  numbers : (s.boardList.map Board.boardNumber).Nodup
  numbered : ∀ b ∈ s.boardList, 1 ≤ b.boardNumber ∧ b.boardNumber ≤ numBoards
  settled : ∀ b ∈ s.boardList, Settled b (s.pci b.pciDev)
  free : ∀ d, d ∉ s.boardList.map Board.pciDev → s.pci d = {}
  nodes : ∀ n, s.nodes n = true ↔ n ∈ s.boardList.map Board.boardNumber
  bound : ∀ d, d ∈ s.bound ↔ d ∈ s.boardList.map Board.pciDev
  bluenocClass : s.boardList ≠ [] → s.bluenocClass = true

/-- The commands that access a register, whatever the level of the board is. -/
def Command.usesRegister : Command → Bool
  | .getStatus | .clkRdWord | .clkGetStatus | .clkClrWord | .clkSendCtrl | .capabilities => true
  | _ => false

/-- The calls that the driver does not survive: a file whose board was freed, and a command that
accesses a register of a board that is not active. -/
def Misused [DecidableEq D] (s : Driver D) : Action D → Prop
  | .release file => s.find file = none
  | .transfer file _ _ => s.find file = none
  | .poll file => s.find file = none
  | .ioctl file cmd w =>
    cmd.check w = none ∧
      ∀ b ∈ s.find file, cmd.usesRegister = true ∧ b.activationLevel ≠ .bluenocActive
  | _ => False

section

variable [DecidableEq D] {s : Driver D} {b b' : Board D} {p : Pci}

/-! ### Boards of the list -/

omit [DecidableEq D] in
theorem Driver.mem_of_find {a : Address} (h : s.find a = some b) :
    b ∈ s.boardList ∧ b.address = a := by
  refine ⟨List.mem_of_find?_eq_some h, ?_⟩
  have := List.find?_some h
  simpa using this

omit [DecidableEq D] in
/-- Two boards of the list with one address are one board. -/
theorem Driver.Inv.eq_of_address {c : Board D} (h : s.Inv) (hb : b ∈ s.boardList)
    (hc : c ∈ s.boardList) (haddr : c.address = b.address) : c = b :=
  List.inj_on_of_nodup_map h.addresses hc hb haddr

omit [DecidableEq D] in
theorem Driver.Inv.find_of_mem (h : s.Inv) (hb : b ∈ s.boardList) :
    s.find b.address = some b := by
  rcases hfind : s.find b.address with _ | c
  · have := List.find?_eq_none.mp hfind b hb
    simp at this
  · obtain ⟨hc, haddr⟩ := Driver.mem_of_find hfind
    rw [h.eq_of_address hb hc haddr]

theorem Driver.put_pci : (s.put (b', p)).pci = Function.update s.pci b'.pciDev p := rfl

/-- What a call changes of a board is nothing that the list is told by. -/
theorem Driver.Inv.map_put {β : Type*} (h : s.Inv) (hb : b ∈ s.boardList)
    (haddr : b'.address = b.address) (f : Board D → β) (hf : f b' = f b) :
    (s.put (b', p)).boardList.map f = s.boardList.map f := by
  rw [Driver.put, List.map_map]
  refine List.map_congr_left fun c hc => ?_
  rw [Function.comp_apply]
  split
  · next heq => rw [hf, h.eq_of_address hb hc (heq.trans haddr)]
  · rfl

/-- **A board after a call.** -/
theorem Driver.Inv.put (h : s.Inv) (hb : b ∈ s.boardList) (hid : b'.identity = b.identity)
    (hset : Settled b' p) : (s.put (b', p)).Inv := by
  obtain ⟨haddr, hdev, hnum⟩ : b'.address = b.address ∧ b'.pciDev = b.pciDev ∧
      b'.boardNumber = b.boardNumber := by
    simpa only [Board.identity, Prod.mk.injEq] using hid
  have haddrs := h.map_put (p := p) hb haddr Board.address haddr
  have hdevs := h.map_put (p := p) hb haddr Board.pciDev hdev
  have hnums := h.map_put (p := p) hb haddr Board.boardNumber hnum
  have hmem : ∀ c ∈ (s.put (b', p)).boardList,
      c = b' ∨ c ∈ s.boardList ∧ c.pciDev ≠ b.pciDev := by
    intro c hc
    obtain ⟨d, hd, rfl⟩ := List.mem_map.mp hc
    by_cases heq : d.address = b'.address
    · exact .inl (if_pos heq)
    · rw [if_neg heq]
      refine .inr ⟨hd, fun hdd => heq ?_⟩
      rw [List.inj_on_of_nodup_map h.devices hd hb hdd, haddr]
  constructor
  · rw [haddrs]
    exact h.addresses
  · rw [hdevs]
    exact h.devices
  · rw [hnums]
    exact h.numbers
  · intro c hc
    rcases hmem c hc with rfl | ⟨hc', -⟩
    · rw [hnum]
      exact h.numbered b hb
    · exact h.numbered c hc'
  · intro c hc
    rcases hmem c hc with rfl | ⟨hc', hne⟩
    · rw [Driver.put_pci, Function.update_self]
      exact hset
    · rw [Driver.put_pci, Function.update_of_ne (hdev ▸ hne)]
      exact h.settled c hc'
  · intro d hd
    rw [hdevs] at hd
    rw [Driver.put_pci, Function.update_of_ne, h.free d hd]
    rintro rfl
    exact hd (hdev ▸ List.mem_map_of_mem hb)
  · intro n
    rw [hnums]
    exact h.nodes n
  · intro d
    rw [hdevs]
    exact h.bound d
  · intro _
    exact h.bluenocClass (List.ne_nil_of_mem hb)

/-- **A board that was probed.** -/
theorem Driver.Inv.insert (h : s.Inv) (hdev : b.pciDev ∉ s.boardList.map Board.pciDev)
    (haddr : ∀ c ∈ s.boardList, c.address ≠ b.address)
    (hnum : ∀ c ∈ s.boardList, c.boardNumber ≠ b.boardNumber)
    (hrange : 1 ≤ b.boardNumber ∧ b.boardNumber ≤ numBoards) (hset : Settled b p) :
    ({ s with
      bluenocClass := true
      boardList := b :: s.boardList
      pci := Function.update s.pci b.pciDev p
      nodes := Function.update s.nodes b.boardNumber true
      bound := b.pciDev :: s.bound } : Driver D).Inv := by
  constructor
  · refine List.nodup_cons.mpr ⟨fun hmem => ?_, h.addresses⟩
    obtain ⟨c, hc, heq⟩ := List.mem_map.mp hmem
    exact haddr c hc heq
  · exact List.nodup_cons.mpr ⟨hdev, h.devices⟩
  · refine List.nodup_cons.mpr ⟨fun hmem => ?_, h.numbers⟩
    obtain ⟨c, hc, heq⟩ := List.mem_map.mp hmem
    exact hnum c hc heq
  · intro c hc
    rcases List.mem_cons.mp hc with rfl | hc
    · exact hrange
    · exact h.numbered c hc
  · intro c hc
    rcases List.mem_cons.mp hc with rfl | hc
    · simpa using hset
    · have hne : c.pciDev ≠ b.pciDev := fun heq => hdev (heq ▸ List.mem_map_of_mem hc)
      simpa [hne] using h.settled c hc
  · intro d hd
    rw [List.map_cons, List.mem_cons, not_or] at hd
    obtain ⟨hne, hd⟩ := hd
    simpa [hne] using h.free d hd
  · intro n
    by_cases hn : n = b.boardNumber
    · simp [hn]
    · simp only [Function.update_of_ne hn, h.nodes n, List.map_cons, List.mem_cons, hn, false_or]
  · intro d
    rw [List.map_cons, List.mem_cons, List.mem_cons, h.bound d]
  · exact fun _ => rfl

/-- **A board that was removed.** -/
theorem Driver.Inv.erase (h : s.Inv) (hb : b ∈ s.boardList) :
    ({ s with
      boardList := s.boardList.filter (·.pciDev ≠ b.pciDev)
      pci := Function.update s.pci b.pciDev {}
      nodes := Function.update s.nodes b.boardNumber false
      bound := s.bound.filter (· ≠ b.pciDev)
      bluenocClass :=
        s.bluenocClass && !(s.boardList.filter (·.pciDev ≠ b.pciDev)).isEmpty } :
      Driver D).Inv := by
  have hsub : (s.boardList.filter (·.pciDev ≠ b.pciDev)).Sublist s.boardList :=
    List.filter_sublist
  have hdevs : ∀ d, d ∈ (s.boardList.filter (·.pciDev ≠ b.pciDev)).map Board.pciDev ↔
      d ∈ s.boardList.map Board.pciDev ∧ d ≠ b.pciDev := by
    intro d
    simp only [List.mem_map, List.mem_filter, decide_eq_true_eq]
    constructor
    · rintro ⟨c, ⟨hc, hne⟩, rfl⟩
      exact ⟨⟨c, hc, rfl⟩, hne⟩
    · rintro ⟨⟨c, hc, rfl⟩, hne⟩
      exact ⟨c, ⟨hc, hne⟩, rfl⟩
  constructor
  · exact h.addresses.sublist (hsub.map _)
  · exact h.devices.sublist (hsub.map _)
  · exact h.numbers.sublist (hsub.map _)
  · exact fun c hc => h.numbered c (hsub.subset hc)
  · intro c hc
    obtain ⟨hc, hne⟩ := List.mem_filter.mp hc
    rw [decide_eq_true_eq] at hne
    simpa [hne] using h.settled c hc
  · intro d hd
    by_cases hdb : d = b.pciDev
    · simp [hdb]
    · simp only [Function.update_of_ne hdb]
      exact h.free d fun hmem => hd ((hdevs d).mpr ⟨hmem, hdb⟩)
  · intro n
    by_cases hn : n = b.boardNumber
    · simp only [hn, Function.update_self, Bool.false_eq_true, false_iff]
      intro hmem
      obtain ⟨c, hc, heq⟩ := List.mem_map.mp hmem
      obtain ⟨hc, hne⟩ := List.mem_filter.mp hc
      rw [List.inj_on_of_nodup_map h.numbers hc hb heq] at hne
      simp at hne
    · simp only [Function.update_of_ne hn, h.nodes n]
      refine ⟨fun hmem => ?_, fun hmem => (hsub.map _).subset hmem⟩
      obtain ⟨c, hc, rfl⟩ := List.mem_map.mp hmem
      refine List.mem_map_of_mem (List.mem_filter.mpr ⟨hc, decide_eq_true fun heq => hn ?_⟩)
      rw [List.inj_on_of_nodup_map h.devices hc hb heq]
  · intro d
    rw [hdevs, ← h.bound d, List.mem_filter, decide_eq_true_eq]
  · intro hne
    rw [h.bluenocClass (List.ne_nil_of_mem hb), Bool.true_and, Bool.not_eq_true',
      List.isEmpty_eq_false_iff]
    exact hne

/-! ### The calls -/

omit [DecidableEq D] in
theorem Driver.Inv.init : (({} : Driver D)).Inv := by
  refine ⟨List.nodup_nil, List.nodup_nil, List.nodup_nil, ?_, ?_, fun _ _ => rfl, ?_, ?_, ?_⟩
  · intro b hb
    cases hb
  · intro b hb
    cases hb
  · intro n
    simp
  · intro d
    simp
  · intro h
    exact absurd rfl h

omit [DecidableEq D] in
/-- A board's registers can be accessed when it is active, and only then. -/
theorem Settled.access (h : Settled b p) :
    p.access = if b.activationLevel = .bluenocActive then some p else none := by
  obtain rfl : p = heldAt b.activationLevel.toNat b := h.holds.pci
  rcases h.levels with hl | hl <;> rw [hl] <;> rfl

omit [DecidableEq D] in
/-- A board at the top is active. -/
theorem Holds.settled_active {x : State D} (h : Holds x.1.identity 11 x) :
    Settled x.1 x.2 := by
  have hlevel : x.1.activationLevel = .bluenocActive := by
    have := h.atLevel
    revert this
    cases x.1.activationLevel <;> simp [ActivationLevel.toNat]
  refine ⟨?_, .inl hlevel⟩
  rw [h.atLevel]
  exact h

omit [DecidableEq D] in
/-- A board at the bottom holds nothing. -/
theorem Holds.settled_assigned {x : State D} (h : Holds x.1.identity 1 x) :
    Settled x.1 x.2 ∧ x.2 = {} := by
  have hlevel : x.1.activationLevel = .boardNumAssigned := by
    have := h.atLevel
    revert this
    cases x.1.activationLevel <;> simp [ActivationLevel.toNat]
  refine ⟨⟨?_, .inr hlevel⟩, h.pci⟩
  rw [h.atLevel]
  exact h

omit [DecidableEq D] in
/-- `deactivate` of a board of the list. -/
theorem Settled.deactivate (h : Settled b p) :
    ∃ x, Boards.deactivate (b, p) = some x ∧ x.1.identity = b.identity ∧ Settled x.1 x.2 ∧
      x.2 = {} := by
  obtain ⟨x, hx, hholds⟩ := deactivate_spec _ _ h.holds
  have hid := hholds.identity
  rw [← hid] at hholds
  exact ⟨x, hx, hid, hholds.settled_assigned⟩

omit [DecidableEq D] in
/-- `activate` of a board of the list. -/
theorem Settled.activate (h : Settled b p) (boardList : List (Board D)) (k : Answers) :
    ∃ x, (Boards.activate boardList k (b, p) = .done x ∨
        ∃ e, Boards.activate boardList k (b, p) = .refused e x) ∧
      x.1.identity = b.identity ∧ Settled x.1 x.2 := by
  rcases activate_spec boardList k h.holds with ⟨x, hx, hholds⟩ | ⟨e, x, hx, hholds⟩
  · have hid := hholds.identity
    rw [← hid] at hholds
    exact ⟨x, .inl hx, hid, hholds.settled_active⟩
  · have hid := hholds.identity
    rw [← hid] at hholds
    exact ⟨x, .inr ⟨e, hx⟩, hid, hholds.settled_assigned.1⟩

omit [DecidableEq D] in
/-- The fields that are not about what is held. -/
theorem Settled.congr (h : Settled b p) (hid : b'.identity = b.identity)
    (hlevel : b'.activationLevel = b.activationLevel) (hbar : b'.bar0io = b.bar0io)
    (hmagic : b'.magicNum = b.magicNum) (hmsix : b'.usesMsix = b.usesMsix)
    (hirq : b'.irqNum = b.irqNum) : Settled b' p := by
  have haddr : b'.address = b.address := congrArg Prod.fst hid
  have hheld : heldAt b.activationLevel.toNat b' = heldAt b.activationLevel.toNat b := by
    simp only [heldAt, hmsix, hirq, haddr]
  refine ⟨⟨⟨?_, rfl, ?_, ?_⟩, ?_, rfl⟩, ?_⟩
  · rw [hlevel]
    exact h.holds.pci.trans hheld.symm
  · rw [hlevel]
    exact fun h4 => hbar.trans (h.holds.bar0io h4)
  · rw [hlevel]
    exact fun h5 => hmagic.trans (h.holds.magicNum h5)
  · rw [hlevel]
    exact h.holds.numbered
  · rw [hlevel]
    exact h.levels

/-- A probe that fails leaves the class, and nothing else. -/
theorem Driver.Inv.probe_failed {dev : D} (h : s.Inv)
    (hdev : dev ∉ s.boardList.map Board.pciDev) :
    ({ s with bluenocClass := true, pci := Function.update s.pci dev {} } : Driver D).Inv := by
  have hpci : Function.update s.pci dev {} = s.pci := by
    rw [← h.free dev hdev, Function.update_eq_self]
  rw [hpci]
  exact ⟨h.addresses, h.devices, h.numbers, h.numbered, h.settled, h.free, h.nodes, h.bound,
    fun _ => rfl⟩

theorem Driver.Inv.probe {dev : D} {vendor device : BitVec 16} {raw : Option (Board D)}
    {k : Answers} {cdevAdd : Bool} (h : s.Inv) (hdev : dev ∉ s.bound)
    (hraw : ∀ b ∈ raw, ∀ c ∈ s.boardList, c.address ≠ b.address) :
    ∃ t r, s.probe dev vendor device raw k cdevAdd = some (t, r) ∧ t.Inv := by
  have hdev' : dev ∉ s.boardList.map Board.pciDev := fun hmem => hdev ((h.bound dev).mpr hmem)
  unfold Driver.probe
  split
  · exact ⟨s, _, rfl, h⟩
  · rcases raw with _ | raw
    · exact ⟨s, _, rfl, h⟩
    · let board : Board D := { raw with
        activationLevel := .probed, pciDev := dev, boardNumber := unassigned, debugLevel := 0 }
      simp only [h.free dev hdev']
      rcases activate_probed_spec (board :: s.boardList) k (b := board) rfl with
        ⟨-, hact⟩ | ⟨n, hn, ⟨⟨b, p⟩, hact, hholds⟩ | ⟨e, ⟨b, p⟩, hact, hholds⟩⟩
      · simp only [board] at hact
        simp only [hact]
        exact ⟨_, _, rfl, h.probe_failed hdev'⟩
      · obtain ⟨hrange, hfresh⟩ := freeBoardNumber_spec hn
        obtain ⟨haddr, hpci, hnum⟩ : b.address = raw.address ∧ b.pciDev = dev ∧
            b.boardNumber = n := by
          simpa only [Board.identity, Prod.mk.injEq, board] using hholds.identity
        have hset : Settled b p := by
          have hid := hholds.identity
          rw [← hid] at hholds
          exact hholds.settled_active
        simp only [board] at hact
        simp only [hact]
        split
        · refine ⟨_, _, rfl, ?_⟩
          rw [← hpci]
          refine h.insert (hpci ▸ hdev') ?_ ?_ (hnum ▸ hrange) hset
          · intro c hc
            rw [haddr]
            exact hraw raw rfl c hc
          · intro c hc
            rw [hnum]
            exact hfresh c (List.mem_cons_of_mem _ hc)
        · obtain ⟨x, hx, -, -, hnone⟩ := hset.deactivate
          simp only [hx, Option.map_some, hnone]
          exact ⟨_, _, rfl, h.probe_failed hdev'⟩
      · have hnone : p = {} := by
          have hid := hholds.identity
          rw [← hid] at hholds
          exact hholds.settled_assigned.2
        simp only [board] at hact
        simp only [hact, hnone]
        exact ⟨_, _, rfl, h.probe_failed hdev'⟩

theorem Driver.Inv.remove {dev : D} (h : s.Inv) (hdev : dev ∈ s.bound) :
    ∃ t r, s.remove dev = some (t, r) ∧ t.Inv := by
  obtain ⟨c, hc, hcdev⟩ := List.mem_map.mp ((h.bound dev).mp hdev)
  rw [Driver.remove]
  rcases hfind : s.boardList.find? (·.pciDev == dev) with _ | b
  · have := List.find?_eq_none.mp hfind c hc
    simp [hcdev] at this
  · have hb := List.mem_of_find?_eq_some hfind
    obtain rfl : b.pciDev = dev := by simpa using List.find?_some hfind
    obtain ⟨x, hx, -, -, hnone⟩ := (h.settled b hb).deactivate
    simp only [hfind, hx, Option.map_some, hnone]
    exact ⟨_, _, rfl, h.erase hb⟩

theorem Driver.Inv.transfer {reason : DmaClearReason} {count : ℕ} (h : s.Inv)
    (hb : b ∈ s.boardList) : ∃ t r, s.transfer b reason count = some (t, r) ∧ t.Inv := by
  rw [Driver.transfer]
  split
  · exact ⟨s, _, rfl, h⟩
  · next hactive =>
    split
    · exact ⟨s, _, rfl, h⟩
    · have hset := h.settled b hb
      rw [hset.access, if_pos (not_not.mp hactive), Option.map_some]
      exact ⟨_, _, rfl, h.put hb rfl (hset.congr rfl rfl rfl rfl rfl rfl)⟩

theorem Driver.Inv.interrupt {dev : D} {bufferStatus : BitVec 64} (h : s.Inv) :
    ∃ t r, s.interrupt dev bufferStatus = some (t, r) ∧ t.Inv := by
  rw [Driver.interrupt]
  rcases hhandler : (s.pci dev).handler with _ | ⟨irq, a⟩
  · exact ⟨s, _, rfl, h⟩
  · -- the handler was installed for a board that is active
    obtain ⟨b, hb, rfl⟩ : ∃ b ∈ s.boardList, b.pciDev = dev := by
      by_contra hnone
      rw [h.free dev (by simpa using hnone)] at hhandler
      cases hhandler
    have hset := h.settled b hb
    obtain ⟨hactive, haddr⟩ : b.activationLevel = .bluenocActive ∧ b.address = a := by
      rw [show s.pci b.pciDev = heldAt b.activationLevel.toNat b from hset.holds.pci] at hhandler
      rcases hset.levels with hl | hl
      · rw [hl] at hhandler
        exact ⟨hl, congrArg Prod.snd (Option.some.inj hhandler)⟩
      · rw [hl] at hhandler
        cases hhandler
    simp only [← haddr, h.find_of_mem hb, Option.bind_some, hset.access, if_pos hactive,
      Option.map_some]
    exact ⟨_, _, rfl, h.put hb rfl (hset.congr rfl rfl rfl rfl rfl rfl)⟩

omit [DecidableEq D] in
/-- A register is accessed, or the driver does not survive it. -/
theorem Driver.Inv.registerCommand {reply : Reply} (h : s.Inv) (hb : b ∈ s.boardList) :
    s.registerCommand b reply =
      if b.activationLevel = .bluenocActive then some (s, reply) else none := by
  rw [Driver.registerCommand, (h.settled b hb).access]
  split <;> rfl

/-- A command that accesses a register, on a board that is not active. -/
theorem Driver.Inv.command_inactive {cmd : Command} {w : World} (h : s.Inv)
    (hb : b ∈ s.boardList) (hcmd : cmd.usesRegister = true)
    (hactive : b.activationLevel ≠ .bluenocActive) : s.command b w cmd = none := by
  cases cmd
  case getStatus | clkRdWord | clkGetStatus | clkClrWord | clkSendCtrl | capabilities =>
    rw [Driver.command, h.registerCommand hb, if_neg hactive]
  all_goals cases hcmd

theorem Driver.Inv.command {cmd : Command} {w : World} (h : s.Inv) (hb : b ∈ s.boardList)
    (hcmd : cmd.usesRegister = true → b.activationLevel = .bluenocActive) :
    ∃ t r, s.command b w cmd = some (t, r) ∧ t.Inv := by
  have hset := h.settled b hb
  cases cmd
  case identify | getDebugLevel | unknown => exact ⟨s, _, rfl, h⟩
  case getStatus | clkRdWord | clkGetStatus | clkClrWord | clkSendCtrl | capabilities =>
    rw [Driver.command, h.registerCommand hb, if_pos (hcmd rfl)]
    exact ⟨s, _, rfl, h⟩
  case softReset =>
    rw [Driver.command]
    split
    · next hactive =>
      have hpci : s.pci b.pciDev = heldAt 11 b := by
        have := hset.holds.pci
        rwa [hactive] at this
      rw [hpci]
      refine ⟨_, _, rfl, h.put hb rfl ?_⟩
      rwa [hpci] at hset
    · exact ⟨s, _, rfl, h⟩
  case deactivate =>
    obtain ⟨x, hx, hid, hset', -⟩ := hset.deactivate
    rw [Driver.command, hx]
    exact ⟨_, _, rfl, h.put hb hid hset'⟩
  case reactivate =>
    obtain ⟨x, hx | ⟨e, hx⟩, hid, hset'⟩ := hset.activate s.boardList w.answers
    · simp only [Driver.command, hx]
      exact ⟨_, _, rfl, h.put hb hid hset'⟩
    · simp only [Driver.command, hx]
      exact ⟨_, _, rfl, h.put hb hid hset'⟩
  case setDebugLevel =>
    rw [Driver.command]
    split
    · exact ⟨_, _, rfl, h.put hb rfl (hset.congr rfl rfl rfl rfl rfl rfl)⟩
    · exact ⟨_, _, rfl, h.put hb rfl (hset.congr rfl rfl rfl rfl rfl rfl)⟩

omit [DecidableEq D] in
/-- The open files are nobody's but the kernel's. -/
theorem Driver.Inv.files (h : s.Inv) (files : List Address) :
    ({ s with files } : Driver D).Inv :=
  ⟨h.addresses, h.devices, h.numbers, h.numbered, h.settled, h.free, h.nodes, h.bound,
    h.bluenocClass⟩

omit [DecidableEq D] in
theorem Driver.Inv.openFile {number : ℕ} (h : s.Inv) : (s.openFile number).1.Inv := by
  rw [Driver.openFile]
  split
  · exact h
  · exact h.files _

/-- A call that is misused. -/
theorem Driver.Inv.misused {a : Action D} (h : s.Inv) (ha : Misused s a) : s.next a = none := by
  cases a
  case release file | transfer file _ _ | poll file =>
    rw [Driver.next, show s.find file = none from ha]
    rfl
  case ioctl file cmd w =>
    obtain ⟨hcheck, hfile⟩ := ha
    rw [Driver.next, Driver.ioctl, hcheck]
    rcases hfind : s.find file with _ | b
    · rfl
    · obtain ⟨hcmd, hactive⟩ := hfile b hfind
      exact h.command_inactive (Driver.mem_of_find hfind).1 hcmd hactive
  all_goals cases ha

/-- **The step lemma.** -/
theorem Driver.Inv.next {a : Action D} (h : s.Inv) (he : Enabled s a) (ha : ¬Misused s a) :
    ∃ t r, s.next a = some (t, r) ∧ t.Inv := by
  cases a
  case probe => exact h.probe he.1 he.2
  case remove => exact h.remove he
  case openFile number => exact ⟨_, _, rfl, h.openFile⟩
  case interrupt => exact h.interrupt
  case release file =>
    obtain ⟨b, hfind⟩ := Option.ne_none_iff_exists'.mp ha
    rw [Driver.next, hfind]
    exact ⟨_, _, rfl, h.files _⟩
  case poll file =>
    obtain ⟨b, hfind⟩ := Option.ne_none_iff_exists'.mp ha
    rw [Driver.next, hfind]
    exact ⟨_, _, rfl, h⟩
  case transfer file reason count =>
    obtain ⟨b, hfind⟩ := Option.ne_none_iff_exists'.mp ha
    rw [Driver.next, hfind]
    exact h.transfer (Driver.mem_of_find hfind).1
  case ioctl file cmd w =>
    rw [Driver.next, Driver.ioctl]
    rcases hcheck : cmd.check w with _ | e
    · rcases hfind : s.find file with _ | b
      · refine absurd ⟨hcheck, ?_⟩ ha
        rw [hfind]
        intro b hb
        cases hb
      · refine h.command (Driver.mem_of_find hfind).1 fun hcmd => ?_
        by_contra hactive
        refine ha ⟨hcheck, ?_⟩
        rw [hfind]
        rintro c ⟨⟩
        exact ⟨hcmd, hactive⟩
    · exact ⟨s, _, rfl, h⟩

end

/-- A structure with what `kmalloc` left in it. -/
def rawBoard (address : Address) : Board Bool where
  address := address
  pciDev := false
  boardNumber := 77
  bar0io := true
  majorRev := 0
  minorRev := 0
  build := 0
  timestamp := 0
  bytesPerBeat := 0
  contentId := 0
  magicNum := 0
  usesMsix := true
  irqNum := 0
  dma := updateDmaBufferStatus 0
  activationLevel := .bluenocActive
  debugLevel := 0

/-- A kernel that refuses nothing, and a board that is one. -/
def goodAnswers : Answers where
  pciEnableDevice := true
  pciRequestRegion := true
  pciIomap := true
  magicNum := expectedMagic
  minorRev := 1
  majorRev := 2
  buildVersion := 3
  timestamp := 4
  nocParams := 8
  boardContentId := 5
  pciSetDmaMask := true
  bufferStatus := 0x100
  pciEnableMsi := none
  pciEnableMsix := some 9
  requestIrq := true

end BlueNocPcie.Boards

end LeapPlatforms
