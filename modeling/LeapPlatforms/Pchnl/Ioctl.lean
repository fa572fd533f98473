import LeapPlatforms.Foundation.Processes
import Mathlib.Data.BitVec
import Mathlib.Tactic.IntervalCases

/-!
# The `pchnl` driver: requests of the user

`pchnl_ioctl` copies a request from the user, and serves it with register accesses, a copy of data
and, for a DMA, a wait for the interrupt. Each command is the program of its calls into the kernel,
in the order of the source; the replies say which copies fail.

## Main definitions

* `PchnlReq`, `PchnlCmd`, `Device`
* `Call`, `Reply`, `Driver` — calls into the kernel
* `pchnlIoctl`
* `Env`, `ioctlRun` — a run of a request, with the calls that it made
* `Sound` — what is said of a run
* `Meets` — when it holds

## Main results

* `ioctl_sound_iff`
* `ioctl_unsound` — a failed copy is not reported
-/

namespace LeapPlatforms

namespace Pchnl

open Prog

/-! ### Requests -/

/-- `BUF_SIZE`. -/
def bufSize : ℕ := 2 ^ 22

/-- `COMM_CSR_BASE_OFFSET`. -/
def commCsrBaseOffset : BitVec 32 := 0x1000

/-- `SYS_CSR_BASE_OFFSET`. -/
def sysCsrBaseOffset : BitVec 32 := 0

/-- `EFAULT`. -/
def efault : ℤ := 14

/-- `EINVAL`. -/
def einval : ℤ := 22

/-- `big_endian`. -/
def bigEndian (little : BitVec 32) : BitVec 32 :=
  (little &&& 0xff) <<< 24 ||| (little &&& 0xff00) <<< 8 ||| (little &&& 0xff0000) >>> 8 |||
    (little &&& 0xff000000) >>> 24

structure TranxCsr where
  idx : BitVec 32
  val : BitVec 32
  deriving Inhabited

structure TranxSysCsr where
  val : BitVec 32
  deriving Inhabited

structure TranxCsrTester where
  idx : BitVec 32
  val : BitVec 32
  deriving Inhabited

structure TranxDma where
  len : BitVec 32
  datap : BitVec 64
  loopCount : BitVec 32
  deriving Inhabited

structure TranxDmaDuplex where
  h2fLen : BitVec 32
  h2fDatap : BitVec 64
  f2hLen : BitVec 32
  f2hDatap : BitVec 64
  loopCount : BitVec 32
  deriving Inhabited

structure TranxSetIntrReg where
  intrRegP : BitVec 64
  deriving Inhabited

structure TranxTranslateV2p where
  va : BitVec 64
  pa : BitVec 64
  deriving Inhabited

structure TranxGetPa where
  pa : BitVec 64
  deriving Inhabited

/-- `struct pchnl_req`; a command uses one member of the union. -/
structure PchnlReq where
  tranxCsr : TranxCsr
  tranxSysCsr : TranxSysCsr
  tranxCsrTester : TranxCsrTester
  tranxDma : TranxDma
  tranxDmaDuplex : TranxDmaDuplex
  tranxSetIntrReg : TranxSetIntrReg
  tranxTranslateV2p : TranxTranslateV2p
  tranxGetPa : TranxGetPa
  deriving Inhabited

/-- The commands. -/
inductive PchnlCmd
  | csrRead
  | csrWrite
  | csrTester
  | sysCsrWrite
  | sysCsrRead
  | intrTester
  | dmaH2f
  | dmaF2h
  | setIntrReg
  | dmaDuplex
  | reset
  | translateV2p
  | getH2fBufferPa
  | getF2hBufferPa
  | unknown
  deriving DecidableEq

/-- The physical addresses of the DMA buffers. -/
structure Device where
  dmaH2fp : BitVec 64
  dmaF2hp : BitVec 64

/-! ### Calls -/

/-- The calls into the kernel; the user's addresses are numbers. -/
inductive Call
  /-- `copy_from_user(&req, arg, sizeof(req))` -/
  | copyRequest
  /-- `copy_to_user(arg, &req, sizeof(req))` -/
  | returnRequest (req : PchnlReq)
  /-- `copy_from_user(dma_h2fp, datap, len)` -/
  | copyFromUser (datap : BitVec 64) (len : ℕ)
  /-- `copy_to_user(datap, dma_f2hp, len)` -/
  | copyToUser (datap : BitVec 64) (len : ℕ)
  /-- `copy_to_user(pa, &ui64, sizeof(uint64_t))` -/
  | copyAddress (pa ui64 : BitVec 64)
  | readl (offset : BitVec 32)
  | writel (val offset : BitVec 32)
  /-- `wait_event_interruptible(wq, flag != 0)` -/
  | waitEvent
  /-- `flag = 0` -/
  | clearFlag
  /-- `flag == 0` -/
  | testFlag
  /-- `flag = 1` -/
  | setFlag
  /-- `wake_up_interruptible(&wq)` -/
  | wakeUp
  /-- `intr_count ++`, and its copy to the user -/
  | countIntr
  | setUsrIntrRegP (p : BitVec 64)
  /-- A word of the user is read without a copy. -/
  | load (va : BitVec 64)
  | getUserPages (va : BitVec 64)
  | pciMapPage

/-- The replies: a copy succeeds or does not, and a wait is ended by a signal or is not. -/
@[reducible] def Reply : Call → Type
  | .copyRequest => Option PchnlReq
  | .returnRequest _ => Bool
  | .copyFromUser _ _ => Bool
  | .copyToUser _ _ => Bool
  | .copyAddress _ _ => Bool
  | .readl _ => BitVec 32
  | .writel _ _ => Unit
  | .waitEvent => Bool
  | .clearFlag => Unit
  | .testFlag => Bool
  | .setFlag => Unit
  | .wakeUp => Unit
  | .countIntr => Unit
  | .setUsrIntrRegP _ => Unit
  | .load _ => BitVec 64
  | .getUserPages _ => ℤ
  | .pciMapPage => BitVec 64

/-- A program of the driver; it always returns. -/
abbrev Driver (α : Type) := Prog Reply Empty α

/-- One call. -/
abbrev sys (c : Call) : Driver (Reply c) := perform c

/-- The value of `ret` behind a copy that may fail. -/
def retOf (copied : Bool) (ret : ℤ) : ℤ := if copied then ret else -efault

def lo32 (x : BitVec 64) : BitVec 32 := x.extractLsb' 0 32

def hi32 (x : BitVec 64) : BitVec 32 := x.extractLsb' 32 32

/-! ### Commands -/

/-- `PCHNL_CSR_READ`. -/
def csrRead (req : PchnlReq) : Driver ℤ := do
  let val : BitVec 32 ← sys (.readl (req.tranxCsr.idx * 4 + commCsrBaseOffset))
  let copied : Bool ← sys (.returnRequest { req with tranxCsr := { req.tranxCsr with val } })
  pure (retOf copied 0)

/-- `PCHNL_CSR_WRITE`. -/
def csrWrite (req : PchnlReq) : Driver ℤ := do
  sys (.writel req.tranxCsr.val (req.tranxCsr.idx * 4 + commCsrBaseOffset))
  pure 0

/-- `PCHNL_CSR_TESTER`. -/
def csrTester (req : PchnlReq) : Driver ℤ := do
  sys (.writel (bigEndian req.tranxCsrTester.idx) (0x3f0 + sysCsrBaseOffset))
  sys (.writel req.tranxCsrTester.val (0x3ec + sysCsrBaseOffset))
  sys (.writel 0xffffffff (0x3e8 + sysCsrBaseOffset))
  pure 0

/-- `PCHNL_SYS_CSR_WRITE`. -/
def sysCsrWrite (req : PchnlReq) : Driver ℤ := do
  sys (.writel req.tranxSysCsr.val (0x00 + sysCsrBaseOffset))
  pure 0

/-- `PCHNL_SYS_CSR_READ`: the value of `ret` behind the copy is overwritten. -/
def sysCsrRead (req : PchnlReq) : Driver ℤ := do
  let val : BitVec 32 ← sys (.readl (0x04 + sysCsrBaseOffset))
  let _copied : Bool ← sys (.returnRequest { req with tranxSysCsr := { val } })
  pure 0

/-- `PCHNL_INTR_TESTER`. -/
def intrTester : Driver ℤ := do
  sys (.writel 0xffffffff (0x3f4 + sysCsrBaseOffset))
  pure 0

/-- The address of a DMA, in two registers. -/
def writeAddress (pa : BitVec 64) (offset : BitVec 32) : Driver Unit := do
  sys (.writel (bigEndian (lo32 pa)) offset)
  sys (.writel (bigEndian (hi32 pa)) (offset + 4))

/-- A DMA starts, and the interrupt is waited for. -/
def startAndWait (loopCount : BitVec 32) : Driver Unit := do
  sys (.writel (bigEndian loopCount) 984)
  sys (.writel (bigEndian 0xffffffff) 1020)
  let _signalled : Bool ← sys .waitEvent
  sys .clearFlag

/-- `PCHNL_DMA_H2F`: it goes on behind a copy that failed. -/
def dmaH2f (dev : Device) (req : PchnlReq) : Driver ℤ := do
  let _copied : Bool ← sys (.copyFromUser req.tranxDma.datap req.tranxDma.len.toNat)
  writeAddress dev.dmaH2fp 960
  sys (.writel (bigEndian req.tranxDma.len) 968)
  startAndWait req.tranxDma.loopCount
  pure 0

/-- `PCHNL_DMA_F2H`: the value of `ret` behind the copy is overwritten. -/
def dmaF2h (dev : Device) (req : PchnlReq) : Driver ℤ := do
  writeAddress dev.dmaF2hp 972
  sys (.writel (bigEndian req.tranxDma.len) 980)
  startAndWait req.tranxDma.loopCount
  let _copied : Bool ← sys (.copyToUser req.tranxDma.datap req.tranxDma.len.toNat)
  pure 0

/-- `PCHNL_SET_INTR_REG`. -/
def setIntrReg (req : PchnlReq) : Driver ℤ := do
  sys (.setUsrIntrRegP req.tranxSetIntrReg.intrRegP)
  pure 0

/-- The address of a DMA, or zero when there is no data. -/
def writeAddressOrZero (datap pa : BitVec 64) (offset : BitVec 32) : Driver Unit :=
  if datap ≠ 0 then writeAddress pa offset
  else do
    sys (.writel 0 offset)
    sys (.writel 0 (offset + 4))

/-- `PCHNL_DMA_DUPLEX`. -/
def dmaDuplex (dev : Device) (req : PchnlReq) : Driver ℤ := do
  writeAddressOrZero req.tranxDmaDuplex.h2fDatap dev.dmaH2fp 960
  sys (.writel (bigEndian req.tranxDmaDuplex.h2fLen) 968)
  writeAddressOrZero req.tranxDmaDuplex.f2hDatap dev.dmaF2hp 972
  sys (.writel (bigEndian req.tranxDmaDuplex.f2hLen) 980)
  startAndWait req.tranxDmaDuplex.loopCount
  pure 0

/-- `PCHNL_RESET`. -/
def resetChannel : Driver ℤ := do
  sys (.writel 0xffffffff 12)
  pure 0

/-- `PCHNL_TRANSLATE_V2P`: `ret` is the number of pages. -/
def translateV2p (req : PchnlReq) : Driver ℤ := do
  let va : BitVec 64 ← sys (.load req.tranxTranslateV2p.va)
  let ret : ℤ ← sys (.getUserPages va)
  if ret ≠ 1 then pure (if ret < 0 then ret else -einval)
  else do
    let ui64 : BitVec 64 ← sys .pciMapPage
    let copied : Bool ← sys (.copyAddress req.tranxTranslateV2p.pa ui64)
    pure (retOf copied ret)

/-- `PCHNL_GET_H2F_BUFFER_PA` and `PCHNL_GET_F2H_BUFFER_PA`: `ret` keeps its first value. -/
def getBufferPa (pa : BitVec 64) (req : PchnlReq) : Driver ℤ := do
  let copied : Bool ← sys (.copyAddress req.tranxGetPa.pa pa)
  pure (retOf copied (-einval))

/-- The `switch` of `pchnl_ioctl`. -/
def serve (dev : Device) : PchnlCmd → PchnlReq → Driver ℤ
  | .csrRead, req => csrRead req
  | .csrWrite, req => csrWrite req
  | .csrTester, req => csrTester req
  | .sysCsrWrite, req => sysCsrWrite req
  | .sysCsrRead, req => sysCsrRead req
  | .intrTester, _ => intrTester
  | .dmaH2f, req => dmaH2f dev req
  | .dmaF2h, req => dmaF2h dev req
  | .setIntrReg, req => setIntrReg req
  | .dmaDuplex, req => dmaDuplex dev req
  | .reset, _ => resetChannel
  | .translateV2p, req => translateV2p req
  | .getH2fBufferPa, req => getBufferPa dev.dmaH2fp req
  | .getF2hBufferPa, req => getBufferPa dev.dmaF2hp req
  | .unknown, _ => pure (-einval)

/-- `pchnl_ioctl`. Without an argument the request is what the stack holds. -/
def pchnlIoctl (dev : Device) (cmd : PchnlCmd) (argNull : Bool) (stack : PchnlReq) : Driver ℤ :=
  if argNull then serve dev cmd stack
  else do
    let req : Option PchnlReq ← sys .copyRequest
    match req with
    | none => pure (-efault)
    | some req => serve dev cmd req

/-! ### Runs -/

/-- The replies: the request of the user, when its copy succeeds, whether the other copy succeeds,
and what the rest of the kernel and the device say. -/
structure Env where
  request : Option PchnlReq
  copied : Bool
  signalled : Bool
  idle : Bool
  readl : BitVec 32 → BitVec 32
  load : BitVec 64 → BitVec 64
  getUserPages : BitVec 64 → ℤ
  pciMapPage : BitVec 64

def Env.reply (env : Env) : (c : Call) → Reply c
  | .copyRequest => env.request
  | .returnRequest _ => env.copied
  | .copyFromUser _ _ => env.copied
  | .copyToUser _ _ => env.copied
  | .copyAddress _ _ => env.copied
  | .readl offset => env.readl offset
  | .writel _ _ => ()
  | .waitEvent => env.signalled
  | .clearFlag => ()
  | .testFlag => env.idle
  | .setFlag => ()
  | .wakeUp => ()
  | .countIntr => ()
  | .setUsrIntrRegP _ => ()
  | .load va => env.load va
  | .getUserPages va => env.getUserPages va
  | .pciMapPage => env.pciMapPage

/-- Only copies fail. -/
def Env.succeeds (env : Env) : Call → Bool
  | .copyRequest => env.request.isSome
  | .returnRequest _ => env.copied
  | .copyFromUser _ _ => env.copied
  | .copyToUser _ _ => env.copied
  | .copyAddress _ _ => env.copied
  | _ => true

/-- A call, and whether it succeeded. -/
structure Made where
  call : Call
  ok : Bool

/-- The calls are answered and noted. -/
def Env.handle (env : Env) (log : List Made) (c : Call) : Reply c × List Made :=
  (env.reply c, log ++ [⟨c, env.succeeds c⟩])

/-- The value that a request returns, and the calls that it made. -/
def ioctlRun (dev : Device) (cmd : PchnlCmd) (argNull : Bool) (stack : PchnlReq) (env : Env) :
    Except Empty ℤ × List Made :=
  (pchnlIoctl dev cmd argNull stack).run env.handle []

/-- The calls made before stay in front. -/
theorem run_append (env : Env) (x : Driver ℤ) (log : List Made) :
    x.run env.handle log = ((x.run env.handle []).1, log ++ (x.run env.handle []).2) := by
  induction x generalizing log with
  | ret a => simp
  | stop e => exact e.elim
  | call c k ih =>
    simp only [run_call, Env.handle]
    rw [ih, ih (env.reply c) ([] ++ _)]
    simp

/-! ### What is said of a run -/

/-- A copy from user space. -/
def Call.FromUser : Call → Prop
  | .copyRequest => True
  | .copyFromUser _ _ => True
  | _ => False

/-- A device register is written. -/
def Call.Writes : Call → Prop
  | .writel _ _ => True
  | _ => False

/-- A register of a length is written with no more than a buffer holds, if `offset` is one. -/
def LengthOk (val offset : BitVec 32) : Prop :=
  offset = 968 ∨ offset = 980 → (bigEndian val).toNat ≤ bufSize

/-- No more than a buffer holds is copied or programmed. -/
def Call.WithinBuffer : Call → Prop
  | .copyFromUser _ len => len ≤ bufSize
  | .copyToUser _ len => len ≤ bufSize
  | .writel val offset => LengthOk val offset
  | _ => True

/-- What is said of a run: zero is returned only if all copies succeeded, no register is written
behind a copy from the user that failed, and all lengths are those of a buffer. -/
structure Sound (run : Except Empty ℤ × List Made) : Prop where
  reported : run.1 = .ok 0 → ∀ m ∈ run.2, m.ok = true
  noWrite : run.2.Pairwise fun m m' => m.call.FromUser → m.ok = false → ¬ m'.call.Writes
  withinBuffer : ∀ m ∈ run.2, m.call.WithinBuffer

/-- The request that is served; there is none when its copy fails. -/
def Env.served (env : Env) (argNull : Bool) (stack : PchnlReq) : Option PchnlReq :=
  if argNull then some stack else env.request

/-- What a request needs, with `copied` for its copy of data. -/
def Meets (req : PchnlReq) (copied : Bool) : PchnlCmd → Prop
  | .csrWrite => LengthOk req.tranxCsr.val (req.tranxCsr.idx * 4 + commCsrBaseOffset)
  | .sysCsrRead => copied = true
  | .dmaH2f => copied = true ∧ req.tranxDma.len.toNat ≤ bufSize
  | .dmaF2h => copied = true ∧ req.tranxDma.len.toNat ≤ bufSize
  | .dmaDuplex =>
    req.tranxDmaDuplex.h2fLen.toNat ≤ bufSize ∧ req.tranxDmaDuplex.f2hLen.toNat ≤ bufSize
  | _ => True

/-! ### Each command -/

theorem bigEndian_bigEndian (x : BitVec 32) : bigEndian (bigEndian x) = x := by
  apply BitVec.eq_of_getLsbD_eq
  intro i hi
  interval_cases i <;> simp [bigEndian]

section Sound

variable {r : Except Empty ℤ} {log : List Made}

@[simp] theorem sound_nil : Sound (r, []) := ⟨by simp, by simp, by simp⟩

/-- What a first call adds when it succeeds. -/
@[simp] theorem sound_cons (c : Call) :
    Sound (r, ⟨c, true⟩ :: log) ↔ c.WithinBuffer ∧ Sound (r, log) := by
  constructor
  · rintro ⟨hrep, hnw, hlen⟩
    have ⟨hc, hlen'⟩ := List.forall_mem_cons.mp hlen
    exact ⟨hc, fun hr => (List.forall_mem_cons.mp (hrep hr)).2,
      (List.pairwise_cons.mp hnw).2, hlen'⟩
  · rintro ⟨hc, hrep, hnw, hlen⟩
    refine ⟨fun hr => List.forall_mem_cons.mpr ⟨rfl, hrep hr⟩, ?_,
      List.forall_mem_cons.mpr ⟨hc, hlen⟩⟩
    exact List.pairwise_cons.mpr ⟨fun m' _ _ h => absurd h (by simp), hnw⟩

/-- What a last call adds: if it fails, this is reported. -/
theorem sound_last (c : Call) (ok : Bool) :
    Sound (r, [⟨c, ok⟩]) ↔ c.WithinBuffer ∧ (r = .ok 0 → ok = true) := by
  constructor
  · intro h
    refine ⟨?_, fun hr => ?_⟩
    · simpa using h.withinBuffer
    · simpa using h.reported hr
  · rintro ⟨hc, hrep⟩
    exact ⟨by simpa using hrep, by simp, by simpa using hc⟩

/-- A register is written behind a copy that failed. -/
theorem not_sound_of_write {c : Call} {m : Made} (hc : c.FromUser) (hm : m ∈ log)
    (hw : m.call.Writes) : ¬ Sound (r, ⟨c, false⟩ :: log) := by
  intro hs
  exact (List.pairwise_cons.mp hs.noWrite).1 m hm hc rfl hw

end Sound

theorem copied_of_retOf {copied : Bool} {ret : ℤ} (h : retOf copied ret = 0) :
    copied = true := by
  by_contra hc
  simp [retOf, hc, efault] at h

attribute [local simp] sys Env.handle Env.reply Env.succeeds Call.WithinBuffer LengthOk

variable (env : Env)

theorem sound_csrRead (req : PchnlReq) : Sound ((csrRead req).run env.handle []) := by
  simp [csrRead, sound_last]
  exact copied_of_retOf

theorem sound_csrWrite (req : PchnlReq) :
    Sound ((csrWrite req).run env.handle []) ↔
      LengthOk req.tranxCsr.val (req.tranxCsr.idx * 4 + commCsrBaseOffset) := by
  simp [csrWrite]

theorem sound_csrTester (req : PchnlReq) : Sound ((csrTester req).run env.handle []) := by
  simp [csrTester, sysCsrBaseOffset]

theorem sound_sysCsrWrite (req : PchnlReq) : Sound ((sysCsrWrite req).run env.handle []) := by
  simp [sysCsrWrite, sysCsrBaseOffset]

/-- Zero is returned, whether or not the copy succeeds. -/
theorem sound_sysCsrRead (req : PchnlReq) :
    Sound ((sysCsrRead req).run env.handle []) ↔ env.copied = true := by
  simp [sysCsrRead, sound_last]

theorem sound_intrTester : Sound (intrTester.run env.handle []) := by
  simp [intrTester, sysCsrBaseOffset]

/-- Registers are written behind a copy that failed. -/
theorem sound_dmaH2f (dev : Device) (req : PchnlReq) :
    Sound ((dmaH2f dev req).run env.handle []) ↔
      env.copied = true ∧ req.tranxDma.len.toNat ≤ bufSize := by
  cases hc : env.copied with
  | true => simp [dmaH2f, writeAddress, startAndWait, hc, bigEndian_bigEndian]
  | false =>
    refine iff_of_false ?_ (by simp)
    simp only [dmaH2f, writeAddress, startAndWait, sys, bind_perform, bind_call, run_call,
      Env.handle, Env.succeeds, hc, pure_eq, run_ret, List.nil_append, List.cons_append]
    exact not_sound_of_write trivial List.mem_cons_self trivial

/-- Zero is returned, whether or not the copy succeeds. -/
theorem sound_dmaF2h (dev : Device) (req : PchnlReq) :
    Sound ((dmaF2h dev req).run env.handle []) ↔
      env.copied = true ∧ req.tranxDma.len.toNat ≤ bufSize := by
  simp [dmaF2h, writeAddress, startAndWait, sound_last, bigEndian_bigEndian, and_comm]

theorem sound_setIntrReg (req : PchnlReq) : Sound ((setIntrReg req).run env.handle []) := by
  simp [setIntrReg]

theorem sound_dmaDuplex (dev : Device) (req : PchnlReq) :
    Sound ((dmaDuplex dev req).run env.handle []) ↔
      req.tranxDmaDuplex.h2fLen.toNat ≤ bufSize ∧ req.tranxDmaDuplex.f2hLen.toNat ≤ bufSize := by
  unfold dmaDuplex writeAddressOrZero
  split
  all_goals
    split
    all_goals simp [writeAddress, startAndWait, bigEndian_bigEndian]

theorem sound_resetChannel : Sound (resetChannel.run env.handle []) := by
  simp [resetChannel]

/-- Behind the copy `ret` is one, the number of pages. -/
theorem sound_translateV2p (req : PchnlReq) :
    Sound ((translateV2p req).run env.handle []) := by
  by_cases hone : env.getUserPages (env.load req.tranxTranslateV2p.va) = 1
  · simp [translateV2p, sound_last, hone]
    exact copied_of_retOf
  · simp [translateV2p, hone]

theorem sound_getBufferPa (pa : BitVec 64) (req : PchnlReq) :
    Sound ((getBufferPa pa req).run env.handle []) := by
  simp [getBufferPa, sound_last]
  exact copied_of_retOf

theorem sound_serve (dev : Device) (cmd : PchnlCmd) (req : PchnlReq) :
    Sound ((serve dev cmd req).run env.handle []) ↔ Meets req env.copied cmd := by
  cases cmd with
  | csrRead => exact iff_of_true (sound_csrRead env req) trivial
  | csrWrite => exact sound_csrWrite env req
  | csrTester => exact iff_of_true (sound_csrTester env req) trivial
  | sysCsrWrite => exact iff_of_true (sound_sysCsrWrite env req) trivial
  | sysCsrRead => exact sound_sysCsrRead env req
  | intrTester => exact iff_of_true (sound_intrTester env) trivial
  | dmaH2f => exact sound_dmaH2f env dev req
  | dmaF2h => exact sound_dmaF2h env dev req
  | setIntrReg => exact iff_of_true (sound_setIntrReg env req) trivial
  | dmaDuplex => exact sound_dmaDuplex env dev req
  | reset => exact iff_of_true (sound_resetChannel env) trivial
  | translateV2p => exact iff_of_true (sound_translateV2p env req) trivial
  | getH2fBufferPa => exact iff_of_true (sound_getBufferPa env _ req) trivial
  | getF2hBufferPa => exact iff_of_true (sound_getBufferPa env _ req) trivial
  | unknown => exact iff_of_true sound_nil trivial

/-! ### The call -/

/-- What is said of a run of `pchnl_ioctl` holds exactly when the request that is served meets what
its command needs. -/
theorem ioctl_sound_iff (dev : Device) (cmd : PchnlCmd) (argNull : Bool) (stack : PchnlReq) :
    Sound (ioctlRun dev cmd argNull stack env) ↔
      ∀ req, env.served argNull stack = some req → Meets req env.copied cmd := by
  unfold ioctlRun pchnlIoctl Env.served
  cases argNull with
  | true => simpa using sound_serve env dev cmd stack
  | false =>
    cases hreq : env.request with
    | none =>
      have hrun : Sound (Except.ok (-efault), [⟨.copyRequest, false⟩]) := by
        rw [sound_last]
        exact ⟨trivial, by simp [efault]⟩
      simpa [hreq] using hrun
    | some req =>
      have hrun := run_append env (serve dev cmd req) [⟨.copyRequest, true⟩]
      simp only [Bool.false_eq_true, if_false, sys, bind_perform, run_call, Env.handle, Env.reply,
        Env.succeeds, hreq, Option.isSome_some, List.nil_append] at hrun ⊢
      rw [hrun, List.singleton_append, sound_cons]
      simpa using sound_serve env dev cmd req

/-- A user whose argument can be read and not written. -/
def readOnlyArgument : Env where
  request := some default
  copied := false
  signalled := false
  idle := true
  readl := fun _ => 0
  load := fun _ => 0
  getUserPages := fun _ => 1
  pciMapPage := 0

/-- A failed copy of `PCHNL_SYS_CSR_READ` is not reported. -/
theorem ioctl_unsound :
    ¬ Sound (ioctlRun ⟨0x10000, 0x20000⟩ .sysCsrRead false default readOnlyArgument) := by
  intro h
  have hlast : (⟨.returnRequest default, false⟩ : Made) ∈
      (ioctlRun ⟨0x10000, 0x20000⟩ .sysCsrRead false default readOnlyArgument).2 :=
    List.mem_of_getElem? (i := 2) rfl
  exact absurd (h.reported rfl _ hlast) (by decide)

end Pchnl

end LeapPlatforms
