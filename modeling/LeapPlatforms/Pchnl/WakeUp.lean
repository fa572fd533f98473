import LeapPlatforms.Pchnl.Ioctl

/-!
# The `pchnl` driver: the wait for an interrupt

The commands of a DMA and `pchnl_read` start a DMA and wait until `flag` is set; `pchnl_intr` sets
it, or clears it if it is set, whatever the interrupt is for. Calls and interrupts are the
processes of one system. The world has `flag`, who sleeps in a wait, and how far the DMA of each
caller is; the scheduler, which puts callers to sleep, is the environment.

## Main definitions

* `pchnlRead`, `pchnlIntr`
* `Proc`, `World`, `Serves`, `Sleeps`, `wakeUps` — the system
* `Undisturbed`, `undisturbed` — steps that no other interrupt or caller disturbs
* `Phase`, `waitDiscipline` — where a process is
* `Orderly` — the invariant

## Main results

* `keeps_prog` — each process keeps to the discipline
* `woken_by_completion`
* `woken_early` — another interrupt ends a wait
-/

namespace LeapPlatforms

namespace Pchnl

open Prog

/-! ### Programs -/

/-- The loop of `pchnl_read`, from `index` on. Unlike the commands it does not clear `flag`. -/
def pchnlReadFrom (dev : Device) (buf : BitVec 64) (count index : ℕ) : Driver ℤ :=
  if index < count then do
    let len := if count - index < bufSize then count - index else bufSize
    writeAddress dev.dmaF2hp 972
    sys (.writel (bigEndian (BitVec.ofNat 32 len)) 980)
    sys (.writel (bigEndian 0xffffffff) 0)
    let _signalled : Bool ← sys .waitEvent
    let copied : Bool ← sys (.copyToUser (buf + BitVec.ofNat 64 index) len)
    if copied then pchnlReadFrom dev buf count (index + bufSize) else pure 0
  else pure count
  termination_by count - index
  decreasing_by
    have hpos : 0 < bufSize := by decide
    omega

/-- `pchnl_read`. -/
def pchnlRead (dev : Device) (buf : BitVec 64) (count : ℕ) : Driver ℤ :=
  pchnlReadFrom dev buf count 0

/-- `flag` is set, with a wake-up, or it is cleared. -/
def toggleFlag (idle : Bool) : Driver Unit :=
  if idle then do
    sys .setFlag
    sys .wakeUp
  else sys .clearFlag

/-- `pchnl_intr`; it returns `IRQ_HANDLED`. -/
def pchnlIntr : Driver ℤ := do
  sys (.writel 0xffffffff 0x08)
  sys .countIntr
  let idle : Bool ← sys .testFlag
  toggleFlag idle
  pure 1

/-- The commands that start a DMA. -/
def PchnlCmd.IsDma (cmd : PchnlCmd) : Prop :=
  cmd = .dmaH2f ∨ cmd = .dmaF2h ∨ cmd = .dmaDuplex

/-- The processes: calls of users and interrupts. -/
inductive Proc
  | ioctl (cmd : PchnlCmd) (dma : cmd.IsDma) (argNull : Bool) (stack : PchnlReq)
  | read (buf : BitVec 64) (count : ℕ)
  | intr

def Proc.prog (dev : Device) : Proc → Driver ℤ
  | .ioctl cmd _ argNull stack => pchnlIoctl dev cmd argNull stack
  | .read buf count => pchnlRead dev buf count
  | .intr => pchnlIntr

/-! ### The world -/

/-- The DMA of a caller: there is none, it is outstanding, its interrupt is `q`, or that interrupt
has been handled and the caller has not left its wait. -/
inductive Dma
  | none
  | outstanding
  | raised (q : ℕ)
  | handled
  deriving DecidableEq

structure World where
  flag : Bool
  /-- Who sleeps in its wait. -/
  asleep : ℕ → Bool
  dma : ℕ → Dma
  /-- A caller has left its wait too early. -/
  early : Bool

def World.init : World where
  flag := false
  asleep := fun _ => false
  dma := fun _ => .none
  early := false

/-- The registers that start a DMA. -/
def Starts (offset : BitVec 32) : Prop :=
  offset = 0 ∨ offset = 1020

instance (offset : BitVec 32) : Decidable (Starts offset) :=
  inferInstanceAs (Decidable (_ ∨ _))

def World.start (w : World) (p : ℕ) : World :=
  { w with dma := Function.update w.dma p .outstanding }

def World.complete (w : World) (p q : ℕ) : World :=
  { w with dma := Function.update w.dma p (.raised q) }

/-- Process `p` writes `flag`; with this the interrupt of a completion is handled. -/
def World.write (w : World) (p : ℕ) (flag : Bool) : World :=
  { w with
    flag
    dma := fun q => if w.dma q = .raised p then .handled else w.dma q }

def World.wakeUp (w : World) : World :=
  { w with asleep := fun _ => false }

def World.leave (w : World) (p : ℕ) : World :=
  { w with
    dma := Function.update w.dma p .none
    early := w.early || decide (w.dma p ≠ .handled) }

/-- The calls. At most one DMA is outstanding; an interrupt that is acknowledged is that of its
completion or another one. A caller leaves its wait with `flag` set or by a signal. -/
inductive Serves : Semantics Reply World
  | start {p : ℕ} {w : World} {val offset : BitVec 32} (hoffset : Starts offset)
      (hfree : ∀ q, w.dma q ≠ .outstanding) : Serves p w (.writel val offset) () (w.start p)
  | complete {p q : ℕ} {w : World} {val : BitVec 32} (hout : w.dma q = .outstanding) :
      Serves p w (.writel val 0x08) () (w.complete q p)
  | acknowledge {p : ℕ} {w : World} {val : BitVec 32} : Serves p w (.writel val 0x08) () w
  | writel {p : ℕ} {w : World} {val offset : BitVec 32} (hoffset : ¬ Starts offset ∧ offset ≠ 0x08) :
      Serves p w (.writel val offset) () w
  | testFlag {p : ℕ} {w : World} : Serves p w .testFlag (!w.flag) w
  | setFlag {p : ℕ} {w : World} : Serves p w .setFlag () (w.write p true)
  | clearFlag {p : ℕ} {w : World} : Serves p w .clearFlag () (w.write p false)
  | wakeUp {p : ℕ} {w : World} : Serves p w .wakeUp () w.wakeUp
  | leave {p : ℕ} {w : World} (hawake : w.asleep p = false) (hflag : w.flag = true) :
      Serves p w .waitEvent false (w.leave p)
  | signal {p : ℕ} {w : World} :
      Serves p w .waitEvent true { w.leave p with asleep := Function.update w.asleep p false }
  | countIntr {p : ℕ} {w : World} : Serves p w .countIntr () w
  | copyRequest {p : ℕ} {w : World} (req : Option PchnlReq) : Serves p w .copyRequest req w
  | copyFromUser {p : ℕ} {w : World} {datap : BitVec 64} {len : ℕ} (copied : Bool) :
      Serves p w (.copyFromUser datap len) copied w
  | copyToUser {p : ℕ} {w : World} {datap : BitVec 64} {len : ℕ} (copied : Bool) :
      Serves p w (.copyToUser datap len) copied w

/-- A caller in its wait that finds `flag` cleared sleeps. -/
inductive Sleeps : World → World → Prop
  | mk {w : World} {p : ℕ} (hwaits : w.dma p ≠ .none) (hflag : w.flag = false) :
      Sleeps w { w with asleep := Function.update w.asleep p true }

/-- The system of the processes `kinds`. -/
def wakeUps (dev : Device) (kinds : ℕ → Proc) : TransitionSystem (Pool Reply Empty ℤ World) :=
  poolIn Sleeps Serves (fun p => (kinds p).prog dev) (· = .init)

/-- A DMA is started with `flag` cleared and nobody else in its wait; while a caller is in its wait
only the handler of its completion writes `flag`; and no signal ends a wait before. -/
def Undisturbed (w : World) (p : ℕ) : (c : Call) → Reply c → Prop
  | .writel _ offset, _ => Starts offset → w.flag = false ∧ ∀ q, q ≠ p → w.dma q = .none
  | .setFlag, _ => ∀ q, w.dma q = .none ∨ w.dma q = .raised p
  | .clearFlag, _ => ∀ q, w.dma q = .none ∨ w.dma q = .raised p
  | .waitEvent, signalled => signalled = true → w.dma p = .handled
  | _, _ => True

/-- The runs whose steps are not disturbed. -/
def undisturbed (dev : Device) (kinds : ℕ → Proc) :
    TransitionSystem (Pool Reply Empty ℤ World) :=
  poolIn Sleeps (fun p w c r w' => Undisturbed w p c r ∧ Serves p w c r w')
    (fun p => (kinds p).prog dev) (· = .init)

/-! ### Where a process is -/

/-- A caller is in its wait or elsewhere; the phases of an interrupt are those of its handler. -/
inductive Phase
  | calm
  | started
  | fresh
  | entered
  | found (idle : Bool)
  | waking
  | done
  deriving DecidableEq

/-- A wait comes directly behind the start of a DMA, and only the handler acknowledges an interrupt,
tests `flag` and sets it. -/
def waitDiscipline : Discipline Reply Phase where
  Allows x
    | .writel _ offset => (x = .calm ∧ offset ≠ 0x08) ∨ (x = .fresh ∧ offset = 0x08)
    | .waitEvent => x = .started
    | .clearFlag => x = .calm ∨ x = .found false
    | .testFlag => x = .entered
    | .setFlag => x = .found true
    | .wakeUp => x = .waking
    | .countIntr => x = .entered
    | .copyRequest => x = .calm
    | .copyFromUser _ _ => x = .calm
    | .copyToUser _ _ => x = .calm
    | _ => False
  next
    | .calm, .writel _ offset, _ => if Starts offset then .started else .calm
    | .started, _, _ => .calm
    | .fresh, _, _ => .entered
    | .entered, .testFlag, idle => .found idle
    | .found true, _, _ => .waking
    | .found false, _, _ => .done
    | .waking, _, _ => .done
    | g, _, _ => g

def Proc.start : Proc → Phase
  | .ioctl _ _ _ _ => .calm
  | .read _ _ => .calm
  | .intr => .fresh

/-- Where a program returns. -/
def AtEnd (g : Phase) : Prop := g = .calm ∨ g = .done

def KeepsTo (g : Phase) (x : Driver ℤ) : Prop :=
  waitDiscipline.Keeps (fun g _ => AtEnd g) (fun _ _ => True) g x

section Calm

variable {a : ℤ} {k : Unit → Driver ℤ}

@[simp] theorem keepsTo_ret : KeepsTo .calm (.ret a) :=
  Or.inl rfl

theorem keepsTo_writel {val offset : BitVec 32} (hoffset : ¬ Starts offset ∧ offset ≠ 0x08) :
    KeepsTo .calm (.call (.writel val offset) k) ↔ KeepsTo .calm (k ()) := by
  have hnext : waitDiscipline.next .calm (.writel val offset) () = .calm := if_neg hoffset.1
  constructor
  · intro h
    have hk := h.2 ()
    rwa [hnext] at hk
  · intro h
    refine ⟨Or.inl ⟨rfl, hoffset.2⟩, fun _ => ?_⟩
    rwa [hnext]

theorem keepsTo_start {val offset : BitVec 32} (hoffset : Starts offset) :
    KeepsTo .calm (.call (.writel val offset) k) ↔ KeepsTo .started (k ()) := by
  have hnext : waitDiscipline.next .calm (.writel val offset) () = .started := if_pos hoffset
  have hack : offset ≠ 0x08 := by
    rcases hoffset with rfl | rfl
    all_goals decide
  constructor
  · intro h
    have hk := h.2 ()
    rwa [hnext] at hk
  · intro h
    refine ⟨Or.inl ⟨rfl, hack⟩, fun _ => ?_⟩
    rwa [hnext]

@[simp] theorem keepsTo_start_1020 {val : BitVec 32} :
    KeepsTo .calm (.call (.writel val 1020#32) k) ↔ KeepsTo .started (k ()) :=
  keepsTo_start (Or.inr rfl)

@[simp] theorem keepsTo_start_0 {val : BitVec 32} :
    KeepsTo .calm (.call (.writel val 0#32) k) ↔ KeepsTo .started (k ()) :=
  keepsTo_start (Or.inl rfl)

@[simp] theorem keepsTo_waitEvent {k : Bool → Driver ℤ} :
    KeepsTo .started (.call .waitEvent k) ↔ ∀ signalled, KeepsTo .calm (k signalled) := by
  exact ⟨fun h => h.2, fun h => ⟨rfl, h⟩⟩

@[simp] theorem keepsTo_clearFlag :
    KeepsTo .calm (.call .clearFlag k) ↔ KeepsTo .calm (k ()) := by
  exact ⟨fun h => h.2 (), fun h => ⟨Or.inl rfl, fun _ => h⟩⟩

@[simp] theorem keepsTo_copyRequest {k : Option PchnlReq → Driver ℤ} :
    KeepsTo .calm (.call .copyRequest k) ↔ ∀ req, KeepsTo .calm (k req) := by
  exact ⟨fun h => h.2, fun h => ⟨rfl, h⟩⟩

@[simp] theorem keepsTo_copyFromUser {datap : BitVec 64} {len : ℕ} {k : Bool → Driver ℤ} :
    KeepsTo .calm (.call (.copyFromUser datap len) k) ↔ ∀ copied, KeepsTo .calm (k copied) := by
  exact ⟨fun h => h.2, fun h => ⟨rfl, h⟩⟩

@[simp] theorem keepsTo_copyToUser {datap : BitVec 64} {len : ℕ} {k : Bool → Driver ℤ} :
    KeepsTo .calm (.call (.copyToUser datap len) k) ↔ ∀ copied, KeepsTo .calm (k copied) := by
  exact ⟨fun h => h.2, fun h => ⟨rfl, h⟩⟩

end Calm

theorem keeps_dmaH2f (dev : Device) (req : PchnlReq) : KeepsTo .calm (dmaH2f dev req) := by
  simp [dmaH2f, writeAddress, startAndWait, sys, keepsTo_writel, Starts]

theorem keeps_dmaF2h (dev : Device) (req : PchnlReq) : KeepsTo .calm (dmaF2h dev req) := by
  simp [dmaF2h, writeAddress, startAndWait, sys, keepsTo_writel, Starts]

theorem keeps_dmaDuplex (dev : Device) (req : PchnlReq) : KeepsTo .calm (dmaDuplex dev req) := by
  unfold dmaDuplex writeAddressOrZero
  split
  all_goals
    split
    all_goals
      simp [writeAddress, startAndWait, sys, keepsTo_writel, Starts]

theorem keeps_serve (dev : Device) {cmd : PchnlCmd} (hcmd : cmd.IsDma) (req : PchnlReq) :
    KeepsTo .calm (serve dev cmd req) := by
  rcases hcmd with rfl | rfl | rfl
  · exact keeps_dmaH2f dev req
  · exact keeps_dmaF2h dev req
  · exact keeps_dmaDuplex dev req

theorem keeps_pchnlIoctl (dev : Device) {cmd : PchnlCmd} (hcmd : cmd.IsDma) (argNull : Bool)
    (stack : PchnlReq) : KeepsTo .calm (pchnlIoctl dev cmd argNull stack) := by
  unfold pchnlIoctl
  split
  · exact keeps_serve dev hcmd stack
  · simp only [sys, bind_perform, keepsTo_copyRequest]
    intro req
    cases req with
    | none => exact keepsTo_ret
    | some req => exact keeps_serve dev hcmd req

theorem keeps_pchnlReadFrom (dev : Device) (buf : BitVec 64) (count index : ℕ) :
    KeepsTo .calm (pchnlReadFrom dev buf count index) := by
  induction index using pchnlReadFrom.induct count with
  | case1 index h ih =>
    rw [pchnlReadFrom, if_pos h]
    simp [writeAddress, sys, keepsTo_writel, Starts]
    exact ih
  | case2 index h =>
    rw [pchnlReadFrom, if_neg h]
    exact keepsTo_ret

theorem keeps_pchnlIntr : KeepsTo .fresh pchnlIntr := by
  refine ⟨Or.inr ⟨rfl, rfl⟩, fun _ => ⟨rfl, fun _ => ⟨rfl, fun idle => ?_⟩⟩⟩
  cases idle with
  | true => exact ⟨rfl, fun _ => ⟨rfl, fun _ => Or.inr rfl⟩⟩
  | false => exact ⟨Or.inr rfl, fun _ => Or.inr rfl⟩

theorem keeps_prog (dev : Device) (kind : Proc) : KeepsTo kind.start (kind.prog dev) := by
  cases kind with
  | ioctl cmd dma argNull stack => exact keeps_pchnlIoctl dev dma argNull stack
  | read buf count => exact keeps_pchnlReadFrom dev buf count 0
  | intr => exact keeps_pchnlIntr

/-! ### The invariant -/

/-- What is known of the caller in its wait: `flag` is set exactly when its completion has been
handled, and a caller that sleeps then is about to be woken. -/
inductive Held (g : ℕ → Phase) (w : World) (p : ℕ) : Prop
  | outstanding (hdma : w.dma p = .outstanding) (hflag : w.flag = false)
  | raised (q : ℕ) (hdma : w.dma p = .raised q) (hflag : w.flag = false)
      (hq : g q = .entered ∨ g q = .found true)
  | handled (hdma : w.dma p = .handled) (hflag : w.flag = true)
      (hawake : w.asleep p = true → ∃ q, g q = .waking)

/-- At most one caller is in its wait, and none has left it too early. -/
structure Orderly (g : ℕ → Phase) (w : World) : Prop where
  waits : ∀ p, w.dma p ≠ .none ↔ g p = .started
  alone : ∀ p q, g p = .started → g q = .started → p = q
  held : ∀ p, g p = .started → Held g w p
  inTime : w.early = false

/-- Nobody waits. -/
theorem orderly_of_free {g : ℕ → Phase} {w : World} (hg : ∀ p, g p ≠ .started)
    (hdma : ∀ p, w.dma p = .none) (hearly : w.early = false) : Orderly g w where
  waits p := iff_of_false (not_not.mpr (hdma p)) (hg p)
  alone p _ hp := absurd hp (hg p)
  held p hp := absurd hp (hg p)
  inTime := hearly

/-- One caller waits. -/
theorem orderly_of_held {g : ℕ → Phase} {w : World} {p : ℕ} (hp : g p = .started)
    (hdma : w.dma p ≠ .none) (hothers : ∀ q, q ≠ p → g q ≠ .started ∧ w.dma q = .none)
    (hheld : Held g w p) (hearly : w.early = false) : Orderly g w where
  waits q := by
    by_cases hq : q = p
    · rw [hq]
      exact iff_of_true hdma hp
    · exact iff_of_false (not_not.mpr (hothers q hq).2) (hothers q hq).1
  alone := by
    have honly : ∀ q, g q = .started → q = p := by
      intro q hq
      by_contra hne
      exact (hothers q hne).1 hq
    intro q r hq hr
    rw [honly q hq, honly r hr]
  held q hq := by
    by_cases hne : q = p
    · rwa [hne]
    · exact absurd hq (hothers q hne).1
  inTime := hearly

section Step

variable {g : ℕ → Phase} {w : World} {p : ℕ}

theorem Orderly.others (h : Orderly g w) (hp : g p = .started) (q : ℕ) (hq : q ≠ p) :
    g q ≠ .started ∧ w.dma q = .none := by
  have hg : g q ≠ .started := fun hstarted => hq (h.alone q p hstarted hp)
  refine ⟨hg, ?_⟩
  by_contra hdma
  exact hg ((h.waits q).mp hdma)

/-- With nobody's DMA under way nobody waits. -/
theorem Orderly.free (h : Orderly g w) (hdma : ∀ q, w.dma q = .none) (q : ℕ) :
    g q ≠ .started := fun hq => (h.waits q).mpr hq (hdma q)

/-- The interrupt of a completion that is not handled yet is in the first part of its handler. -/
theorem Orderly.of_raised (h : Orderly g w) {q : ℕ} (hq : w.dma q = .raised p) :
    w.flag = false ∧ (g p = .entered ∨ g p = .found true) := by
  rcases h.held q ((h.waits q).mp (by simp [hq])) with ⟨hdma, -⟩ | ⟨r, hdma, hflag, hr⟩ |
    ⟨hdma, -, -⟩
  · simp [hq] at hdma
  · obtain rfl : p = r := by simpa [hq] using hdma
    exact ⟨hflag, hr⟩
  · simp [hq] at hdma

/-- A process moves on and the world stays as it is. -/
theorem Orderly.move (h : Orderly g w) {x : Phase} (hp : g p ≠ .started)
    (hw : g p = .waking → ∀ q, w.asleep q = false)
    (hx : x ≠ .started) (hr : ∀ q, w.dma q = .raised p → x = .entered ∨ x = .found true) :
    Orderly (Function.update g p x) w := by
  have hstarted : ∀ q, Function.update g p x q = .started ↔ g q = .started := by
    intro q
    by_cases hq : q = p
    · simp [hq, hx, hp]
    · simp [hq]
  refine ⟨fun q => (h.waits q).trans (hstarted q).symm, ?_, ?_, h.inTime⟩
  · intro q r hq hr
    exact h.alone q r ((hstarted q).mp hq) ((hstarted r).mp hr)
  · intro q hq
    rcases h.held q ((hstarted q).mp hq) with ⟨hdma, hflag⟩ | ⟨r, hdma, hflag, hgr⟩ |
      ⟨hdma, hflag, hawake⟩
    · exact .outstanding hdma hflag
    · refine .raised r hdma hflag ?_
      by_cases hrp : r = p
      · subst hrp
        simpa using hr q hdma
      · simpa [hrp] using hgr
    · refine .handled hdma hflag fun hasleep => ?_
      obtain ⟨r, hwaking⟩ := hawake hasleep
      have hrp : r ≠ p := by
        rintro rfl
        simp [hw hwaking q] at hasleep
      exact ⟨r, by simpa [hrp] using hwaking⟩

theorem Orderly.start (h : Orderly g w) (hflag : w.flag = false)
    (hothers : ∀ q, q ≠ p → w.dma q = .none) :
    Orderly (Function.update g p .started) (w.start p) := by
  have hdma : (w.start p).dma p = .outstanding := by simp [World.start]
  refine orderly_of_held (p := p) (by simp) (by simp [hdma]) ?_ (.outstanding hdma hflag) h.inTime
  intro q hq
  have hg : g q ≠ .started := fun hstarted => (h.waits q).mpr hstarted (hothers q hq)
  simp [World.start, hq, hg, hothers q hq]

/-- The handler of a completion is entered. -/
theorem Orderly.complete (h : Orderly g w) {q : ℕ} (hp : g p = .fresh)
    (hout : w.dma q = .outstanding) :
    Orderly (Function.update g p .entered) (w.complete q p) := by
  have hq : g q = .started := (h.waits q).mp (by simp [hout])
  have hqp : q ≠ p := by
    rintro rfl
    simp [hp] at hq
  have hflag : w.flag = false := by
    rcases h.held q hq with ⟨-, hflag⟩ | ⟨r, -, hflag, -⟩ | ⟨hdma, -, -⟩
    · exact hflag
    · exact hflag
    · simp [hout] at hdma
  have hdma : (w.complete q p).dma q = .raised p := by simp [World.complete]
  refine orderly_of_held (p := q) (by simpa [hqp] using hq) (by simp [hdma]) ?_
    (.raised p hdma hflag (Or.inl (by simp))) h.inTime
  intro r hr
  obtain ⟨hg, hnone⟩ := h.others hq r hr
  refine ⟨?_, by simpa [World.complete, hr] using hnone⟩
  by_cases hrp : r = p
  · simp [hrp]
  · simpa [hrp] using hg

/-- The handler of a completion sets `flag`. -/
theorem Orderly.setFlag (h : Orderly g w) (hp : g p = .found true)
    (hown : ∀ q, w.dma q = .none ∨ w.dma q = .raised p) :
    Orderly (Function.update g p .waking) (w.write p true) := by
  have hstarted : ∀ q, Function.update g p .waking q = .started ↔ g q = .started := by
    intro q
    by_cases hq : q = p
    · simp [hq, hp]
    · simp [hq]
  have hnone : ∀ q, (w.write p true).dma q = .none ↔ w.dma q = .none := by
    intro q
    rcases hown q with hdma | hdma
    all_goals simp [World.write, hdma]
  refine ⟨?_, ?_, ?_, h.inTime⟩
  · intro q
    rw [hstarted, Ne, hnone]
    exact h.waits q
  · intro q r hq hr
    exact h.alone q r ((hstarted q).mp hq) ((hstarted r).mp hr)
  · intro q hq
    have hraised : w.dma q = .raised p :=
      (hown q).resolve_left ((h.waits q).mpr ((hstarted q).mp hq))
    exact .handled (by simp [World.write, hraised]) rfl fun _ => ⟨p, by simp⟩

/-- `flag` is cleared while nobody waits. -/
theorem Orderly.clearFlag (h : Orderly g w) {x : Phase} (hx : x ≠ .started)
    (hp : g p ≠ .entered ∧ g p ≠ .found true)
    (hown : ∀ q, w.dma q = .none ∨ w.dma q = .raised p) :
    Orderly (Function.update g p x) (w.write p false) := by
  have hnone : ∀ q, w.dma q = .none := by
    intro q
    exact (hown q).resolve_right fun hraised => (h.of_raised hraised).2.elim hp.1 hp.2
  refine orderly_of_free ?_ ?_ h.inTime
  · intro q
    by_cases hq : q = p
    · simp [hq, hx]
    · simpa [hq] using h.free hnone q
  · intro q
    simp [World.write, hnone q]

theorem Orderly.wakeUp (h : Orderly g w) (hp : g p = .waking) :
    Orderly (Function.update g p .done) w.wakeUp := by
  have hwoken : Orderly g w.wakeUp := by
    refine ⟨h.waits, h.alone, fun q hq => ?_, h.inTime⟩
    rcases h.held q hq with ⟨hdma, hflag⟩ | ⟨r, hdma, hflag, hr⟩ | ⟨hdma, hflag, -⟩
    · exact .outstanding hdma hflag
    · exact .raised r hdma hflag hr
    · exact .handled hdma hflag fun hasleep => by cases hasleep
  refine hwoken.move (by simp [hp]) (fun _ _ => rfl) (by simp) fun q hq => ?_
  have hentered := (h.of_raised hq).2
  simp [hp] at hentered

/-- A caller whose completion has been handled leaves its wait. -/
theorem Orderly.leave (h : Orderly g w) (hp : g p = .started) (hhandled : w.dma p = .handled)
    (asleep : ℕ → Bool) :
    Orderly (Function.update g p .calm) { w.leave p with asleep } := by
  refine orderly_of_free ?_ ?_ (by simp [World.leave, hhandled, h.inTime])
  · intro q
    by_cases hq : q = p
    · simp [hq]
    · simpa [hq] using (h.others hp q hq).1
  · intro q
    by_cases hq : q = p
    · simp [World.leave, hq]
    · simpa [World.leave, hq] using (h.others hp q hq).2

theorem Orderly.sleep (h : Orderly g w) (hflag : w.flag = false) (p : ℕ) :
    Orderly g { w with asleep := Function.update w.asleep p true } := by
  refine ⟨h.waits, h.alone, fun q hq => ?_, h.inTime⟩
  rcases h.held q hq with ⟨hdma, hflag⟩ | ⟨r, hdma, hflag, hr⟩ | ⟨-, hset, -⟩
  · exact .outstanding hdma hflag
  · exact .raised r hdma hflag hr
  · simp [hflag] at hset

theorem ne_of_starts {offset : BitVec 32} (h : Starts offset) : offset ≠ 0x08 := by
  rcases h with rfl | rfl
  all_goals decide

theorem calm_of_writel {x : Phase} {val offset : BitVec 32}
    (h : waitDiscipline.Allows x (.writel val offset)) (hoffset : offset ≠ 0x08) : x = .calm := by
  rcases h with ⟨hx, -⟩ | ⟨-, hack⟩
  · exact hx
  · exact absurd hack hoffset

/-- **One call.** -/
theorem Orderly.step (h : Orderly g w) {c : Call} {r : Reply c} {w' : World}
    (hallows : waitDiscipline.Allows (g p) c) (hcond : Undisturbed w p c r)
    (hserves : Serves p w c r w') :
    Orderly (Function.update g p (waitDiscipline.next (g p) c r)) w' := by
  -- A caller outside its wait stays there.
  have hstay : g p = .calm → waitDiscipline.next .calm c r = .calm →
      Orderly (Function.update g p (waitDiscipline.next (g p) c r)) w := by
    intro hp hnext
    rwa [hp, hnext, ← hp, Function.update_eq_self]
  cases hserves with
  | @start _ _ val offset hoffset hfree =>
    have hp : g p = .calm := calm_of_writel hallows (ne_of_starts hoffset)
    have hnext : waitDiscipline.next .calm (.writel val offset) () = .started := if_pos hoffset
    rw [hp, hnext]
    exact h.start (hcond hoffset).1 (hcond hoffset).2
  | complete hout =>
    have hp : g p = .fresh := by simpa [waitDiscipline] using hallows
    rw [hp]
    exact h.complete hp hout
  | acknowledge =>
    have hp : g p = .fresh := by simpa [waitDiscipline] using hallows
    rw [hp]
    exact h.move (by simp [hp]) (by simp [hp]) (by simp [waitDiscipline]) fun _ _ => Or.inl rfl
  | writel hoffset =>
    have hp : g p = .calm := calm_of_writel hallows hoffset.2
    exact hstay hp (if_neg hoffset.1)
  | testFlag =>
    have hp : g p = .entered := hallows
    rw [hp]
    refine h.move (by simp [hp]) (by simp [hp]) (by simp [waitDiscipline]) fun q hq => Or.inr ?_
    simp [waitDiscipline, (h.of_raised hq).1]
  | setFlag =>
    have hp : g p = .found true := hallows
    rw [hp]
    exact h.setFlag hp hcond
  | clearFlag =>
    rcases hallows with hp | hp
    all_goals
      rw [hp]
      exact h.clearFlag (by simp [waitDiscipline]) (by simp [hp]) hcond
  | wakeUp =>
    have hp : g p = .waking := hallows
    rw [hp]
    exact h.wakeUp hp
  | leave hawake hflag =>
    have hp : g p = .started := hallows
    have hhandled : w.dma p = .handled := by
      rcases h.held p hp with ⟨-, hclear⟩ | ⟨r, -, hclear, -⟩ | ⟨hdma, -, -⟩
      · simp [hflag] at hclear
      · simp [hflag] at hclear
      · exact hdma
    rw [hp]
    exact h.leave hp hhandled w.asleep
  | signal =>
    have hp : g p = .started := hallows
    rw [hp]
    exact h.leave hp (hcond rfl) _
  | countIntr =>
    have hp : g p = .entered := hallows
    have hnext : waitDiscipline.next (g p) .countIntr () = g p := by
      rw [hp]
      rfl
    rwa [hnext, Function.update_eq_self]
  | copyRequest req => exact hstay hallows rfl
  | copyFromUser copied => exact hstay hallows rfl
  | copyToUser copied => exact hstay hallows rfl

end Step

/-! ### The runs -/

/-- **Phases.** In a run that nothing disturbs each process is in a phase, and callers and flag
agree. -/
theorem orderly_of_reachable {dev : Device} {kinds : ℕ → Proc} {s : Pool Reply Empty ℤ World}
    (hs : (undisturbed dev kinds).Reachable s) :
    ∃ g : ℕ → Phase, (∀ p, KeepsTo (g p) (s.procs p)) ∧ Orderly g s.world := by
  refine Pool.invariant_in (D := fun _ => waitDiscipline) (fun p => keeps_prog dev (kinds p)) ?_ ?_
    ?_ hs
  · rintro w rfl
    refine orderly_of_free ?_ (fun _ => rfl) rfl
    intro p
    cases kinds p <;> simp [Proc.start]
  · rintro g w p c r w' h hallows ⟨hcond, hserves⟩
    exact h.step hallows hcond hserves
  · rintro g w w' h ⟨hwaits, hflag⟩
    exact h.sleep hflag _

theorem call_of_waking {x : Driver ℤ} (h : KeepsTo .waking x) : ∃ k, x = .call .wakeUp k := by
  cases x with
  | ret a => simp [KeepsTo, AtEnd] at h
  | stop e => exact e.elim
  | call c k =>
    have hallows : waitDiscipline.Allows .waking c := h.1
    cases c <;> simp [waitDiscipline] at hallows
    exact ⟨k, rfl⟩

/-- In a run that nothing disturbs no caller leaves its wait before its completion has been handled,
and then `flag` is set as long as it waits; if it sleeps, it is about to be woken. -/
theorem woken_by_completion (dev : Device) (kinds : ℕ → Proc) {s : Pool Reply Empty ℤ World}
    (hs : (undisturbed dev kinds).Reachable s) :
    s.world.early = false ∧
      ∀ p, s.world.dma p = .handled →
        s.world.flag = true ∧
          (s.world.asleep p = true → ∃ q k, s.procs q = .call .wakeUp k) := by
  obtain ⟨g, hkeeps, h⟩ := orderly_of_reachable hs
  refine ⟨h.inTime, fun p hp => ?_⟩
  rcases h.held p ((h.waits p).mp (by simp [hp])) with ⟨hdma, -⟩ | ⟨r, hdma, -⟩ |
    ⟨-, hflag, hawake⟩
  · simp [hp] at hdma
  · simp [hp] at hdma
  · refine ⟨hflag, fun hasleep => ?_⟩
    obtain ⟨q, hq⟩ := hawake hasleep
    exact ⟨q, call_of_waking (hq ▸ hkeeps q)⟩

/-- A transfer from the FPGA, and interrupts. -/
def oneTransfer (p : ℕ) : Proc :=
  if p = 0 then .ioctl .dmaF2h (Or.inr (Or.inl rfl)) false default else .intr

theorem woken_by_completion_oneTransfer :
    ∃ s, (undisturbed ⟨0x10000, 0x20000⟩ oneTransfer).Reachable s ∧ s.world.dma 0 = .handled ∧
      s.world.early = false ∧ s.world.flag = true := by
  have h := TransitionSystem.Reachable.init
    (show (undisturbed ⟨0x10000, 0x20000⟩ oneTransfer).init ⟨_, _⟩ from ⟨rfl, rfl⟩)
  replace h := h.step (Or.inl (.mk (p := 0) rfl ⟨trivial, .copyRequest (some default)⟩))
  replace h := h.step (Or.inl (.mk (p := 0) rfl ⟨(absurd · (by decide)), .writel (by decide)⟩))
  replace h := h.step (Or.inl (.mk (p := 0) rfl ⟨(absurd · (by decide)), .writel (by decide)⟩))
  replace h := h.step (Or.inl (.mk (p := 0) rfl ⟨(absurd · (by decide)), .writel (by decide)⟩))
  replace h := h.step (Or.inl (.mk (p := 0) rfl ⟨(absurd · (by decide)), .writel (by decide)⟩))
  replace h := h.step (Or.inl (.mk (p := 0) rfl
    ⟨fun _ => ⟨rfl, fun _ _ => rfl⟩, .start (by decide) nofun⟩))
  replace h := h.step (Or.inl (.mk (p := 1) rfl ⟨(absurd · (by decide)), .complete (q := 0) rfl⟩))
  replace h := h.step (Or.inl (.mk (p := 1) rfl ⟨trivial, .countIntr⟩))
  replace h := h.step (Or.inl (.mk (p := 1) rfl ⟨trivial, .testFlag⟩))
  have hown : ∀ q, Function.update (Function.update (fun _ => Dma.none) 0 .outstanding) 0
      (.raised 1) q = .none ∨ Function.update (Function.update (fun _ => Dma.none) 0 .outstanding) 0
      (.raised 1) q = .raised 1 := by
    intro q
    by_cases hq : q = 0
    · exact Or.inr (by simp [hq])
    · exact Or.inl (by simp [hq])
  replace h := h.step (Or.inl (.mk (p := 1) rfl ⟨hown, .setFlag⟩))
  obtain ⟨hearly, hwaits⟩ := woken_by_completion _ _ h
  exact ⟨_, h, rfl, hearly, (hwaits 0 rfl).1⟩

/-- Another interrupt sets `flag` while the DMA is outstanding. -/
theorem woken_early :
    ∃ s, (wakeUps ⟨0x10000, 0x20000⟩ oneTransfer).Reachable s ∧ s.world.early = true := by
  have h := TransitionSystem.Reachable.init
    (show (wakeUps ⟨0x10000, 0x20000⟩ oneTransfer).init ⟨_, _⟩ from ⟨rfl, rfl⟩)
  replace h := h.step (Or.inl (.mk (p := 0) rfl (.copyRequest (some default))))
  replace h := h.step (Or.inl (.mk (p := 0) rfl (.writel (by decide))))
  replace h := h.step (Or.inl (.mk (p := 0) rfl (.writel (by decide))))
  replace h := h.step (Or.inl (.mk (p := 0) rfl (.writel (by decide))))
  replace h := h.step (Or.inl (.mk (p := 0) rfl (.writel (by decide))))
  replace h := h.step (Or.inl (.mk (p := 0) rfl (.start (by decide) nofun)))
  replace h := h.step (Or.inl (.mk (p := 1) rfl .acknowledge))
  replace h := h.step (Or.inl (.mk (p := 1) rfl .countIntr))
  replace h := h.step (Or.inl (.mk (p := 1) rfl .testFlag))
  replace h := h.step (Or.inl (.mk (p := 1) rfl .setFlag))
  replace h := h.step (Or.inl (.mk (p := 0) rfl (.leave rfl rfl)))
  exact ⟨_, h, rfl⟩

end Pchnl

end LeapPlatforms
