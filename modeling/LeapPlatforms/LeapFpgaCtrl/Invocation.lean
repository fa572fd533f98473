import LeapPlatforms.Foundation.Processes
import LeapPlatforms.LeapFpgaCtrl.Reservation

/-!
# `leap-fpga-ctrl`: invocations

An invocation of the program is a process that makes calls on the files of the host: the lock
file of programming, of which there is one, the reservation files, and the device files. Each
function of the source is the program of its calls, in the order of the source, and ends where
the source returns or where it exits with an error. What surrounds an invocation (other
invocations, scripts, failures of calls) is in the replies.

`Answers` says what the replies may be. A reservation file that is absent and one that is empty
are the same contents. The lock of a reservation file is held by one process at a time and is
given up when the process closes the file or exits. The helper script is code of the installation
and may do what it likes to the device files.

Waiting for the programming lock goes on for `polls` turns, any number; an invocation that is
still waiting then has ended with `Stop.waiting`.

## Main definitions

* `Section`, `Device`, `cfgValidate`, `cfgLoadDev`
* `Call`, `Reply`, `Ctrl`
* `changeCurrentReservation`, `setFpgaDeviceAccess`, `invokeHelperScript`
* `reserve`, `programDev`, `serveDevice`
* `Job`, `prepare` (`main` up to the request), `serve`, `main`, `invocation`
* `Files`, `Answers`, `leapFpgaCtrl`
-/

namespace LeapPlatforms

namespace LeapFpgaCtrl

open Scan Prog

/-! ## Configuration -/

/-- A section of the configuration file, with the keys that are read. -/
structure Section where
  name : String
  cls : Option String
  hasControlScript : Option String
  dev : Option String
  busId : Option String
  progCableId : Option String
  location : Option String
  kernelModuleName : Option String
  kernelModulePath : Option String

/-- `cfg_validate`: the message of the first error. -/
def cfgValidate (cfg : List Section) : Option String :=
  if cfg = [] then some "Error - Configuration file doesn't describe any devices."
  else cfg.findSome? fun sec =>
    if sec.cls = none then some s!"Error - Device {sec.name} has no 'class' key"
    else if sec.kernelModuleName ≠ none ∧ sec.kernelModulePath = none then
      some s!"Error - Device {sec.name} specifies kernel module name but no path"
    else none

/-- The state extracted from the configuration file for one device. -/
structure Device where
  id : ℕ
  name : String
  /-- Validation has seen to it that the class is given. -/
  cls : String
  hasScript : Bool
  fpgaDev : Option String
  busId : Option String
  progCableId : Option String
  /-- The reservation file, in the directory of the lock files. -/
  resFile : String

/-- `cfg_load_dev`. The reservation file has the name of the bus where there is one, so that two
devices may be aliases of one board. -/
def cfgLoadDev (sec : Section) (id : ℕ) : Device where
  id := id
  name := sec.name
  cls := sec.cls.getD ""
  hasScript := sec.hasControlScript.getD "no" = "yes"
  fpgaDev := sec.dev
  busId := sec.busId
  progCableId := sec.progCableId
  resFile := sec.busId.getD sec.name

/-- The devices of a configuration. -/
def devices (cfg : List Section) : List Device :=
  cfg.zipIdx.map fun s => cfgLoadDev s.1 s.2

/-! ## Calls -/

/-- A device file: its owner and its permission bits. -/
structure DevFile where
  owner : Uid
  mode : BitVec 9
  deriving DecidableEq

/-- What `stat` finds. -/
inductive StatResult
  | missing
  | failed
  | found (file : DevFile)

/-- How starting a script ends. A script that a signal ends has the exit status 0. -/
inductive ScriptResult
  | tooLong
  | notFound
  | forkFailed
  | exited (status : ℕ)
  deriving DecidableEq

/-- The calls of an invocation. -/
inductive Call
  /-- `open(PROG_LOCK_FILE, O_RDWR | O_CREAT | O_EXCL)` -/
  | createLock
  | writeLock (id : ℕ)
  | readLock
  | unlinkLock
  /-- `open(cfg_res_file, O_RDWR | O_CREAT)` -/
  | openRes (f : String)
  /-- `fcntl(lockf, F_SETLK, &lock)` -/
  | lockRes (f : String)
  /-- A read of `oldState` before it has been given a value. -/
  | uninitialised
  | readRes (f : String)
  /-- The file is rewritten from its start and cut off behind the text. -/
  | writeRes (f : String) (t : Text)
  | closeRes (f : String)
  /-- A read without the lock. -/
  | peekRes (f : String)
  /-- The script of a class, with the request, the number of the device and its device file. -/
  | runScript (cls cmd : String) (id : ℕ) (dev : Option String)
  | stat (path : String)
  | chown (path : String) (uid : Uid)
  | chmod (path : String) (mode : BitVec 9)
  | exit

/-- The replies to a call. -/
@[reducible] def Reply : Call → Type
  | .createLock => Bool
  | .writeLock _ => Unit
  | .readLock => Option Text
  | .unlinkLock => Unit
  | .openRes _ => Bool
  | .lockRes _ => Bool
  | .uninitialised => BitVec 32
  | .readRes _ => Text
  | .writeRes _ _ => Unit
  | .closeRes _ => Unit
  | .peekRes _ => Text
  | .runScript _ _ _ _ => ScriptResult
  | .stat _ => StatResult
  | .chown _ _ => Bool
  | .chmod _ _ => Bool
  | .exit => Unit

/-- Why an invocation has stopped. -/
inductive Stop
  | error (message : String)
  /-- It is still waiting for the programming lock. -/
  | waiting
  deriving DecidableEq

/-- The program of an invocation or of a part of it. -/
abbrev Ctrl (α : Type) := Prog Reply Stop α

/-- One call of the program. -/
abbrev sys (c : Call) : Ctrl (Reply c) := perform c

/-- `error(1, ..)` -/
def fail {α : Type} (message : String) : Ctrl α := .stop (.error message)

/-! ## Requests -/

/-- The requests for one device. -/
inductive DeviceRequest
  | program
  | activate
  | deactivate
  | dropReservation
  | reset
  | setSignature (signature : Text)
  | getSignature
  | getState
  | getConfig (key : String)

/-- The requests; the command line has exactly one of them. -/
inductive Request
  | reserve (cls : Option String)
  | status
  | device (r : DeviceRequest)

/-- An invocation: who makes it, and its command line. -/
structure Invocation where
  uid : Uid
  force : Bool
  request : Request
  deviceId : Option ℕ
  /-- How often the program looks for the programming lock. -/
  polls : ℕ

/-- What all invocations on a host read: the configuration file, when it can be loaded, and the
password file. -/
structure Host where
  cfg : Option (List Section)
  pwName : Uid → Option String

/-- The devices of the host. -/
def Host.devices (host : Host) : List Device := (host.cfg.map LeapFpgaCtrl.devices).getD []

/-! ## Parts of a request -/

/-- `unlink(PROG_LOCK_FILE)` under a test. -/
def removeLockIf (b : Bool) : Ctrl Unit :=
  if b then sys .unlinkLock else pure ()

/-- The loop that locks the reservation file: after `retries` more failures it gives up, and then
tests a variable that has no value yet. -/
def lockReservation (dev : Device) (newState : FpgaState) : ℕ → Ctrl Unit
  | 0 => do
    let got : Bool ← sys (.lockRes dev.resFile)
    if got then pure ()
    else do
      let oldState : BitVec 32 ← sys .uninitialised
      removeLockIf (oldState.toNat != FpgaState.program.code && newState == .program)
      fail s!"Error - Failed to acquire lock file: {dev.resFile}"
  | retries + 1 => do
    let got : Bool ← sys (.lockRes dev.resFile)
    if got then pure () else lockReservation dev newState retries

/-- The part of `change_current_reservation` behind the judgement. -/
def enact (dev : Device) (myUid : Uid) : Verdict → Ctrl Bool
  | .refused removesLock message => do
    removeLockIf removesLock
    fail message
  | .unavailable => do
    let _ : Unit ← sys (.closeRes dev.resFile)
    pure false
  | .update newState signature removesLock => do
    let _ : Unit ← sys (.writeRes dev.resFile (printReservation myUid newState signature))
    removeLockIf removesLock
    pure true

/-- `change_current_reservation` -/
def changeCurrentReservation (host : Host) (inv : Invocation) (dev : Device)
    (newState : FpgaState) (newSignature : Option Text) : Ctrl Bool := do
  let opened : Bool ← sys (.openRes dev.resFile)
  if opened then do
    lockReservation dev newState 20
    let text : Text ← sys (.readRes dev.resFile)
    enact dev inv.uid
      (judge host.pwName inv.uid inv.force newState newSignature (scanReservation text))
  else fail s!"Error - Failed to open lock file: {dev.resFile}"

/-- `set_fpga_device_access` -/
def setFpgaDeviceAccess (inv : Invocation) (dev : Device) (userAccess : Bool) : Ctrl Unit :=
  let prot : BitVec 9 := if userAccess then 0o600 else 0o400
  let tgtUid : Uid := if userAccess then inv.uid else 0
  match dev.fpgaDev with
  | none => pure ()
  | some path => do
    let statb : StatResult ← sys (.stat path)
    match statb with
    | .missing => pure ()
    | .failed => fail s!"Error - FPGA device {path}"
    | .found file =>
      if file.mode ≠ prot ∨ file.owner ≠ tgtUid then do
        let chowned : Bool ← sys (.chown path tgtUid)
        if chowned then do
          let chmoded : Bool ← sys (.chmod path prot)
          if chmoded then pure ()
          else fail s!"Error - Failed to change protection of {path}"
        else fail s!"Error - Failed to change protection of {path}"
      else pure ()

/-- The argument of the helper script; not every state has one. -/
def scriptCmd : FpgaState → Option String
  | .program => some "program"
  | .active => some "activate"
  | .inactive => some "deactivate"
  | _ => none

/-- `invoke_helper_script` -/
def invokeHelperScript (dev : Device) (state : FpgaState) : Ctrl Unit :=
  match scriptCmd state with
  | none => pure ()
  | some cmd =>
    if dev.hasScript then do
      let result : ScriptResult ← sys (.runScript dev.cls cmd dev.id dev.fpgaDev)
      match result with
      | .tooLong => fail "Error - Configuration script path too long"
      | .notFound => fail "Error - Requested control script not found"
      | .forkFailed => fail "Error - fork() failed"
      | .exited status =>
        if status ≠ 0 then fail s!"Error - {dev.cls} - exit status {status}" else pure ()
    else pure ()

/-- Whether the text of the lock file is the number of a device. -/
def namesDevice (lock : Option Text) (id : ℕ) : Bool :=
  match lock with
  | none => false
  | some text =>
    match scanInt text with
    | none => false
    | some (z, _) => toInt32 z = BitVec.ofNat 32 id

/-- The loop of `program_dev` that gets the programming lock. -/
def acquireProgLock (inv : Invocation) (dev : Device) : ℕ → Ctrl Unit
  | 0 => .stop .waiting
  | polls + 1 => do
    let created : Bool ← sys .createLock
    if created then sys (.writeLock dev.id)
    else do
      let lock : Option Text ← sys .readLock
      if namesDevice lock dev.id ∨ inv.force then pure () else acquireProgLock inv dev polls

/-- What `current_reservation_state` prints. -/
inductive ShowState
  | all
  | status
  | signature

/-- `current_reservation_state`: the lines it prints. -/
def currentReservationState (host : Host) (which : ShowState) (dev : Device) :
    Ctrl (List Text) := do
  let text : Text ← sys (.peekRes dev.resFile)
  let old := scanReservation text
  match which with
  | .all =>
    pure <| ["  Current state: ".toList ++ old.oldState.print.toList] ++
      (if old.oldState ≠ .free then
        ((host.pwName old.owner).map fun name => "  Current owner: ".toList ++ name.toList).toList
      else []) ++
      (if old.signature ≠ [] then ["  Current signature: ".toList ++ old.signature] else [])
  | .status => pure [old.oldState.print.toList]
  | .signature => pure (if old.signature ≠ [] then [old.signature] else [])

/-- The calls that concern neither the lock file nor a reservation file. -/
def Call.IsDevice : Call → Prop
  | .runScript _ _ _ _ => True
  | .stat _ => True
  | .chown _ _ => True
  | .chmod _ _ => True
  | _ => False

theorem makes_setFpgaDeviceAccess (inv : Invocation) (dev : Device) (userAccess : Bool) :
    (setFpgaDeviceAccess inv dev userAccess).Makes Call.IsDevice := by
  rw [setFpgaDeviceAccess]
  rcases dev.fpgaDev with _ | path
  · trivial
  refine ⟨trivial, ?_⟩
  rintro (_ | _ | file)
  · trivial
  · trivial
  refine makes_ite ⟨trivial, fun chowned => ?_⟩ trivial
  refine makes_ite ⟨trivial, fun chmoded => ?_⟩ trivial
  exact makes_ite trivial trivial

theorem makes_invokeHelperScript (dev : Device) (state : FpgaState) :
    (invokeHelperScript dev state).Makes Call.IsDevice := by
  rw [invokeHelperScript]
  rcases scriptCmd state with _ | cmd
  · trivial
  refine makes_ite ⟨trivial, ?_⟩ trivial
  rintro (_ | _ | _ | status)
  · trivial
  · trivial
  · trivial
  · exact makes_ite trivial trivial

/-! ## Requests, one by one -/

/-- The loop of `reserve` over the devices. -/
def reserveFrom (host : Host) (inv : Invocation) (cls : String) : List Device → Ctrl Device
  | [] => fail "Error - Failed to find free device matching requested class"
  | dev :: devs =>
    if dev.cls = cls then do
      let got ← changeCurrentReservation host inv dev .reserved none
      if got then pure dev else reserveFrom host inv cls devs
    else reserveFrom host inv cls devs

/-- `reserve`: the number of the device is printed. -/
def reserve (host : Host) (inv : Invocation) (devs : List Device) (cls : Option String) :
    Ctrl (List Text) :=
  match cls with
  | none => fail "Error - Reservation class must be specified with --reserve"
  | some cls => do
    let dev ← reserveFrom host inv cls devs
    setFpgaDeviceAccess inv dev false
    pure [showInt dev.id]

/-- `program_dev` -/
def programDev (host : Host) (inv : Invocation) (dev : Device) : Ctrl (List Text) := do
  acquireProgLock inv dev inv.polls
  let _ ← changeCurrentReservation host inv dev .program none
  setFpgaDeviceAccess inv dev false
  invokeHelperScript dev .program
  pure []

/-- `activate_dev` -/
def activateDev (host : Host) (inv : Invocation) (dev : Device) : Ctrl (List Text) := do
  let _ ← changeCurrentReservation host inv dev .active none
  invokeHelperScript dev .active
  setFpgaDeviceAccess inv dev true
  pure []

/-- `deactivate_dev` -/
def deactivateDev (host : Host) (inv : Invocation) (dev : Device) : Ctrl (List Text) := do
  let _ ← changeCurrentReservation host inv dev .inactive none
  invokeHelperScript dev .inactive
  setFpgaDeviceAccess inv dev false
  pure []

/-- `drop_reservation` -/
def dropReservation (host : Host) (inv : Invocation) (dev : Device) : Ctrl (List Text) := do
  let _ ← changeCurrentReservation host inv dev .free none
  setFpgaDeviceAccess inv dev false
  pure []

/-- `reset` -/
def reset (host : Host) (inv : Invocation) (dev : Device) : Ctrl (List Text) := do
  let _ ← changeCurrentReservation host inv dev .reset none
  setFpgaDeviceAccess inv dev false
  pure []

/-- `--setsignature` -/
def setSignature (host : Host) (inv : Invocation) (dev : Device) (signature : Text) :
    Ctrl (List Text) := do
  let _ ← changeCurrentReservation host inv dev .program (some signature)
  pure []

/-- `get_config`. The location is a pointer printed as a number, which has no value here. -/
def getConfig (dev : Device) (key : String) : Ctrl (List Text) :=
  match key with
  | "dev" => pure [(dev.fpgaDev.getD "").toList]
  | "name" => pure [dev.name.toList]
  | "class" => pure [dev.cls.toList]
  | "bus_id" => pure [(dev.busId.getD "").toList]
  | "prog_cable_id" => pure [(dev.progCableId.getD "").toList]
  | "id" => pure [showInt dev.id]
  | "location" => pure []
  | _ => fail s!"Error - Unexpected getconfig request ({key})"

/-- The requests for one device, as `main` calls them. -/
def serveDevice (host : Host) (inv : Invocation) (dev : Device) :
    DeviceRequest → Ctrl (List Text)
  | .program => programDev host inv dev
  | .activate => activateDev host inv dev
  | .deactivate => deactivateDev host inv dev
  | .dropReservation => dropReservation host inv dev
  | .reset => reset host inv dev
  | .setSignature signature => setSignature host inv dev signature
  | .getSignature => currentReservationState host .signature dev
  | .getState => currentReservationState host .status dev
  | .getConfig key => getConfig dev key

/-- What the requests for one device write. -/
def DeviceRequest.change : DeviceRequest → Option (FpgaState × Option Text)
  | .program => some (.program, none)
  | .activate => some (.active, none)
  | .deactivate => some (.inactive, none)
  | .dropReservation => some (.free, none)
  | .reset => some (.reset, none)
  | .setSignature signature => some (.program, some signature)
  | .getSignature => none
  | .getState => none
  | .getConfig _ => none

/-- A call that only reads a reservation file. -/
def Call.IsQuery : Call → Prop
  | .peekRes _ => True
  | _ => False

/-- The part of a request behind the change of the reservation makes no further call on the
reservation files or the lock file. -/
def Trailing (rest : Bool → Ctrl (List Text)) : Prop := ∀ b, (rest b).Makes Call.IsDevice

/-- A request to program changes the reservation once it has the lock. -/
theorem serveDevice_program (host : Host) (inv : Invocation) (dev : Device) :
    ∃ rest, Trailing rest ∧ serveDevice host inv dev .program =
      (acquireProgLock inv dev inv.polls >>= fun _ =>
        changeCurrentReservation host inv dev .program none >>= rest) :=
  ⟨_, fun _ => (makes_setFpgaDeviceAccess inv dev false).bind fun _ =>
    (makes_invokeHelperScript dev .program).bind fun _ => makes_ret _ [], rfl⟩

/-- The other requests for one device that change the reservation do so at once. -/
theorem serveDevice_of_change (host : Host) (inv : Invocation) (dev : Device) {r : DeviceRequest}
    {newState : FpgaState} {newSignature : Option Text} (hr : r ≠ .program)
    (hchange : r.change = some (newState, newSignature)) :
    newState ≠ .reserved ∧ ∃ rest, Trailing rest ∧ serveDevice host inv dev r =
      (changeCurrentReservation host inv dev newState newSignature >>= rest) := by
  cases r <;> cases hchange
  case program => exact absurd rfl hr
  case activate =>
    exact ⟨by decide, _, fun _ => (makes_invokeHelperScript dev .active).bind fun _ =>
      (makes_setFpgaDeviceAccess inv dev true).bind fun _ => makes_ret _ [], rfl⟩
  case deactivate =>
    exact ⟨by decide, _, fun _ => (makes_invokeHelperScript dev .inactive).bind fun _ =>
      (makes_setFpgaDeviceAccess inv dev false).bind fun _ => makes_ret _ [], rfl⟩
  case dropReservation =>
    exact ⟨by decide, _, fun _ => (makes_setFpgaDeviceAccess inv dev false).bind fun _ =>
      makes_ret _ [], rfl⟩
  case reset =>
    exact ⟨by decide, _, fun _ => (makes_setFpgaDeviceAccess inv dev false).bind fun _ =>
      makes_ret _ [], rfl⟩
  case setSignature => exact ⟨by decide, fun _ => pure [], fun _ => trivial, rfl⟩

/-- The requests that change nothing only read. -/
theorem makes_serveDevice (host : Host) (inv : Invocation) (dev : Device) {r : DeviceRequest}
    (hr : r.change = none) : (serveDevice host inv dev r).Makes Call.IsQuery := by
  cases r <;> cases hr
  case getSignature => exact ⟨trivial, fun _ => trivial⟩
  case getState => exact ⟨trivial, fun _ => trivial⟩
  case getConfig key =>
    change (getConfig dev key).Makes Call.IsQuery
    unfold getConfig
    split <;> trivial

/-- `--status`: the state of every device. -/
def queryStatus (host : Host) : List Device → Ctrl (List Text)
  | [] => pure []
  | dev :: devs => do
    let lines ← currentReservationState host .all dev
    let rest ← queryStatus host devs
    pure ((dev.name.toList ++ [':']) :: lines ++ rest)

theorem makes_queryStatus (host : Host) (devs : List Device) :
    (queryStatus host devs).Makes Call.IsQuery := by
  induction devs with
  | nil => trivial
  | cons dev devs ih => exact ⟨trivial, fun _ => ih.bind fun _ => trivial⟩

/-- The device of the command line, or the only one there is. -/
def chooseDevice (devs : List Device) (deviceId : Option ℕ) : Option Device :=
  match deviceId with
  | some id => devs[id]?
  | none => if devs.length = 1 then devs.head? else none

/-- A request with what the configuration says of it. -/
inductive Job
  | reserve (devs : List Device) (cls : Option String)
  | status (devs : List Device)
  | device (dev : Device) (r : DeviceRequest)

/-- `main`, from the reading of the options to the calls of the requests: the message of an
error, or what is to be done. -/
def prepare (host : Host) (inv : Invocation) : Except String Job :=
  match host.cfg with
  | none => .error "Error - configuration file load failed"
  | some cfg =>
    if ∃ id ∈ inv.deviceId, cfg.length ≤ id then .error "Error - Illegal device id"
    else
      match cfgValidate cfg with
      | some message => .error message
      | none =>
        match inv.request with
        | .reserve cls =>
          if inv.deviceId.isSome then
            .error "Error - --device-id may not be specified with --reserve"
          else
            .ok (.reserve (devices cfg)
              (cls.or ((chooseDevice (devices cfg) none).map Device.cls)))
        | .status => .ok (.status (devices cfg))
        | .device r =>
          match chooseDevice (devices cfg) inv.deviceId with
          | none => .error "Error - --device-id must be specified"
          | some dev => .ok (.device dev r)

/-- What is to be done is what was asked, for devices of the configuration. -/
def Job.Of (cfg : List Section) (request : Request) : Job → Prop
  | .reserve devs _ => devs = devices cfg ∧ ∃ cls, request = .reserve cls
  | .status devs => devs = devices cfg ∧ request = .status
  | .device dev r => dev ∈ devices cfg ∧ request = .device r

theorem mem_of_chooseDevice {devs : List Device} {deviceId : Option ℕ} {dev : Device}
    (h : chooseDevice devs deviceId = some dev) : dev ∈ devs := by
  rcases deviceId with _ | id
  · rw [chooseDevice] at h
    split at h
    · exact List.mem_of_mem_head? h
    · cases h
  · exact List.mem_of_getElem? h

theorem prepare_ok {host : Host} {inv : Invocation} {job : Job} (h : prepare host inv = .ok job) :
    ∃ cfg ∈ host.cfg, job.Of cfg inv.request := by
  rw [prepare] at h
  rcases hcfg : host.cfg with _ | cfg
  · rw [hcfg] at h
    cases h
  refine ⟨cfg, rfl, ?_⟩
  simp only [hcfg] at h
  split at h
  · cases h
  rcases hvalid : cfgValidate cfg with _ | message
  swap
  · rw [hvalid] at h
    cases h
  simp only [hvalid] at h
  rcases hreq : inv.request with cls | _ | r
  · simp only [hreq] at h
    split at h
    · cases h
    · cases h
      exact ⟨rfl, cls, rfl⟩
  · simp only [hreq] at h
    cases h
    exact ⟨rfl, rfl⟩
  · simp only [hreq] at h
    rcases hdev : chooseDevice (devices cfg) inv.deviceId with _ | dev
    · rw [hdev] at h
      cases h
    · rw [hdev] at h
      cases h
      exact ⟨mem_of_chooseDevice hdev, rfl⟩

/-- The end of `main`. -/
def serve (host : Host) (inv : Invocation) : Job → Ctrl (List Text)
  | .reserve devs cls => reserve host inv devs cls
  | .status devs => queryStatus host devs
  | .device dev r => serveDevice host inv dev r

/-- `main`. -/
def main (host : Host) (inv : Invocation) : Ctrl (List Text) :=
  match prepare host inv with
  | .error message => fail message
  | .ok job => serve host inv job

/-- A whole invocation, to its exit. -/
def invocation (host : Host) (inv : Invocation) : Ctrl (List Text) :=
  (main host inv).closing .exit

/-! ## The files of the host -/

/-- The lock file. An inode is known by the process that created it. -/
structure LockFile where
  creator : ℕ
  text : Text
  deriving DecidableEq

/-- The files that invocations share, and who holds the locks of the reservation files. -/
structure Files where
  progLock : Option LockFile
  res : String → Text
  resLock : String → Option ℕ
  dev : String → Option DevFile

namespace Files

/-- The files with the device file at `path` changed by `g`. -/
def changeDev (w : Files) (path : String) (g : DevFile → DevFile) : Files :=
  { w with dev := Function.update w.dev path ((w.dev path).map g) }

/-- The files when the process `p` has let go of the reservation files of which `which` holds. -/
def release (w : Files) (p : ℕ) (which : String → Prop) [DecidablePred which] : Files :=
  { w with resLock := fun f => if w.resLock f = some p ∧ which f then none else w.resLock f }

end Files

/-- What the call `c` of the process `p` may be answered, and the files it leaves. -/
def Answers : Semantics Reply Files := fun p w c =>
  match c with
  | .createLock => fun r w' =>
    r = w.progLock.isNone ∧ w' = if r then { w with progLock := some ⟨p, []⟩ } else w
  | .writeLock id => fun _ w' =>
    w' = { w with progLock := w.progLock.map fun l =>
      if l.creator = p then { l with text := showInt id ++ ['\n'] } else l }
  | .readLock => fun r w' => r = w.progLock.map LockFile.text ∧ w' = w
  | .unlinkLock => fun _ w' => w' = { w with progLock := none }
  | .openRes _ => fun _ w' => w' = w
  | .lockRes f => fun r w' =>
    r = decide (w.resLock f = none ∨ w.resLock f = some p) ∧
      w' = if r then { w with resLock := Function.update w.resLock f (some p) } else w
  | .uninitialised => fun _ w' => w' = w
  | .readRes f => fun r w' => r = w.res f ∧ w' = w
  | .writeRes f t => fun _ w' => w' = { w with res := Function.update w.res f t }
  | .closeRes f => fun _ w' => w' = w.release p (· = f)
  | .peekRes f => fun r w' => r = w.res f ∧ w' = w
  | .runScript _ _ _ _ => fun _ w' => ∃ dev : String → Option DevFile, w' = { w with dev := dev }
  | .stat path => fun r w' => w' = w ∧
    (r = .failed ∨ r = (w.dev path).elim .missing .found)
  | .chown path uid => fun r w' =>
    w' = if r then w.changeDev path fun file => { file with owner := uid } else w
  | .chmod path mode => fun r w' =>
    w' = if r then w.changeDev path fun file => { file with mode := mode } else w
  | .exit => fun _ w' => w' = w.release p fun _ => True

/-- **The host.** Any number of invocations by any users, one call of one of them at a time. -/
def leapFpgaCtrl (host : Host) (invs : ℕ → Invocation) (init : Files → Prop) :
    TransitionSystem (Pool Reply Stop (List Text) Files) :=
  pool Answers (fun p => invocation host (invs p)) init

end LeapFpgaCtrl

end LeapPlatforms
