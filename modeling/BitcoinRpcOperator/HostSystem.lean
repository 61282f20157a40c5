import BitcoinRpcOperator.FallibleProcedures
import BitcoinRpcOperator.ServiceConfiguration
import BitcoinRpcOperator.Backtracking

/-!
# The machine a charm hook runs on

Files, systemd units and the RPC endpoint as the charm sees them, and the external
operations the charm performs on them. Every operation may raise. A rename, a mode
change or an unlink that raises has done nothing; a write that raises leaves any
content behind; a `systemctl` call that raises leaves the units in any state.

Unit states follow systemd's documented behaviour: starting a unit also starts the
units of its `Wants=`, starting a running unit does nothing, a restart always
replaces the process, and a process reads its `EnvironmentFile=` when it is started.
-/

namespace BitcoinRpcOperator.HostSystem
open Text ServiceConfiguration FallibleProcedures Backtracking

inductive Path where
  | binary | cli | rpcProxyBinary
  | env (s : Service)
  | monitorScript
  | unit (s : Service)
  /-- An entry of the staging directory of `install_release`. -/
  | stage (name : Str)
  /-- The `mkstemp` file next to a path. -/
  | temporary (p : Path)
  | other (posix : Str)
  deriving DecidableEq, Repr

namespace Path

/-- The names of `constants.py`; staging and temporary names are random there. -/
def posix : Path → Str
  | .binary => "/home/bitcoin/bitcoind".toList
  | .cli => "/home/bitcoin/bitcoin-cli".toList
  | .rpcProxyBinary => "/home/bitcoin/bitcoin-rpc-proxy".toList
  | .env s => "/etc/default/".toList ++ s.name
  | .monitorScript => "/home/bitcoin/monitor/bitcoind-monitor.py".toList
  | .unit s => "/etc/systemd/system/".toList ++ s.name ++ ".service".toList
  | .stage name => "/home/bitcoin/.bitcoin-stage-/".toList ++ name
  | .temporary p => p.posix ++ ".tmp".toList
  | .other s => s

def name (p : Path) : Str := (rcutAt (· == '/') p.posix).2

def transactionPaths : List Path :=
  [.binary, .cli, .rpcProxyBinary, .env .node, .env .monitor, .env .rpcProxy, .monitorScript,
    .unit .node, .unit .monitor, .unit .rpcProxy]

/-- Files that live only while an operation is under way. -/
def isScratch : Path → Bool
  | .stage _ | .temporary _ => true
  | _ => false

end Path

structure FileState where
  data : Bytes
  mode : ℕ
  deriving DecidableEq, Repr

inductive Exc where
  /-- Whatever an external operation raised. -/
  | raised (message : Str)
  | valueError (message : Str)
  | runtimeError (message : Str) (cause : Option Exc)

namespace Exc

/-- `str(exc)`. -/
def text : Exc → Str
  | .raised m | .valueError m | .runtimeError m _ => m

end Exc

inductive Verb where
  | start | stop | restart
  deriving DecidableEq, Repr

inductive Op where
  | systemctl (verb : Verb) (s : Service)
  | daemonReload
  | status (s : Service)
  | rpcPost (user password : Str)
  | httpGet (url : Str)
  | read (p : Path)
  | stat (p : Path)
  | write (p : Path)
  | chmod (p : Path)
  | unlink (p : Path)
  | replace (source destination : Path)
  | mkdir (p : Path)
  | mkstemp (p : Path)
  | makeStage
  | removeStage
  | openArchive
  | execute (p : Path)
  | chown
  /-- The user, the packages and the virtual environment of the install hook. -/
  | account | packages
  /-- What a hook reports to Juju and to the metadata collector. -/
  | workloadVersion | setStatus | collectMetadata
  deriving DecidableEq, Repr

/-- What the loop of `wait_for_running_version` sees of one request. -/
inductive Reply where
  /-- A failure that the loop swallows. -/
  | unavailable
  /-- The text of the reported sub-version, empty when there is none. -/
  | subversion (text : Str)

structure Answer where
  raises : Option Str := none
  /-- What a write that raises leaves in its file. -/
  debris : Option FileState := none
  /-- The units after a `systemctl` call that raises. -/
  units : Service → Bool := fun _ => false
  /-- What has become of the units since the charm last acted on them. -/
  drift : (Service → Bool) → Service → Bool := id
  reply : Reply := .unavailable
  /-- The error `collect_upload_metadata` returns. -/
  metadataError : Option Str := none
  /-- What a command of the install hook makes of the files that the charm does not manage. -/
  others : (Str → Option FileState) → Str → Option FileState := id

/-- The steps of a recovery that a procedure keeps account of. -/
inductive Attempt where
  /-- The start after a failed stop. -/
  | restartAfterStop
  | stopReplacement | restoreBinaries | startPrevious
  | stop (s : Service)
  | restore (p : Path)
  | daemonReload
  | start (s : Service)
  | readiness (s : Service)
  /-- A readiness check that itself raised, with nothing to catch it. -/
  | uncaught (s : Service)
  deriving DecidableEq, Repr

def Service.shortName : Service → Str
  | .node => "node".toList
  | .monitor => "monitor".toList
  | .rpcProxy => "proxy".toList

/-- The name an operation has in a rollback error. -/
def Attempt.title : Attempt → Str
  | .restartAfterStop => "start".toList
  | .stopReplacement => "stop replacement".toList
  | .restoreBinaries => "restore binaries".toList
  | .startPrevious => "start previous version".toList
  | .stop s => "stop ".toList ++ Service.shortName s
  | .restore p => "restore ".toList ++ p.name
  | .daemonReload => "daemon-reload".toList
  | .start s => "start ".toList ++ Service.shortName s
  | .readiness s | .uncaught s => Service.shortName s ++ " readiness".toList

/-- A process as it was started: when, and with which environment file. -/
structure Process where
  startedAt : ℕ := 0
  environment : Option FileState := none

structure Host where
  files : Path → Option FileState
  running : Service → Bool
  /-- When a file was last written, in operations asked. -/
  written : Path → ℕ := fun _ => 0
  /-- The latest process of each service. -/
  process : Service → Process := fun _ => {}
  /-- The last successful readiness poll: when, and with which credentials. -/
  answered : Option (ℕ × Str × Str) := none
  /-- Recovery steps attempted, latest first, with the text of their failure. -/
  attempts : List (Attempt × Option Str) := []

abbrev Proc := FallibleProcedures.Proc Op Answer Exc Host

abbrev World := FallibleProcedures.World Op Host

abbrev Environment := FallibleProcedures.Environment Op Answer

namespace Host

def setFile (h : Host) (p : Path) (f : Option FileState) (t : ℕ) : Host :=
  { h with files := Function.update h.files p f, written := Function.update h.written p t }

/-- Change the files that the charm does not manage. -/
def setOthers (h : Host) (change : (Str → Option FileState) → Str → Option FileState) : Host :=
  { h with files := fun p => match p with
      | .other posix => change (fun posix => h.files (.other posix)) posix
      | p => h.files p }

def clearStage (h : Host) : Host :=
  { h with files := fun p => match p with
      | .stage _ => none
      | p => h.files p }

/-- `Wants=` of the units in `templates/`. -/
def wants : Service → List Service
  | .rpcProxy => [.node]
  | .node | .monitor => []

def startUnit (h : Host) (s : Service) (t : ℕ) : Host :=
  if h.running s then h
  else { h with running := Function.update h.running s true,
                process := Function.update h.process s ⟨t, h.files (.env s)⟩ }

def stopUnit (h : Host) (s : Service) : Host :=
  { h with running := Function.update h.running s false }

def systemctl (h : Host) (verb : Verb) (s : Service) (t : ℕ) : Host :=
  match verb with
  | .stop => h.stopUnit s
  | .start => ((wants s).foldl (fun h w => h.startUnit w t) h).startUnit s t
  | .restart => (((wants s).foldl (fun h w => h.startUnit w t) h).stopUnit s).startUnit s t

def noted (h : Host) (label : Attempt) (failure : Option Str) : Host :=
  { h with attempts := (label, failure) :: h.attempts }

end Host

/-- Ask for `op`; the host moves by `failed` when it raises and by `done` otherwise,
at the time of the operation. -/
def external (op : Op) (failed : Answer → ℕ → Host → Host) (done : Answer → ℕ → Host → Host) :
    Proc Answer := do
  let a ← ask op
  let t ← now
  match a.raises with
  | some m => do
    modifyHost (failed a t)
    throw (.raised m)
  | none => do
    modifyHost (done a t)
    pure a

/-- An operation that leaves the host alone. -/
def observe (op : Op) : Proc Answer := external op (fun _ _ h => h) (fun _ _ h => h)

def perform (op : Op) (done : ℕ → Host → Host) : Proc Unit := do
  let _ ← external op (fun _ _ h => h) (fun _ t => done t)

/-- A command that sets up the machine, whether it fails or not. -/
def setUp (op : Op) : Proc Unit := do
  let _ ← external op (fun a _ h => h.setOthers a.others) (fun a _ h => h.setOthers a.others)

def noSuchFile : Exc := .raised "No such file or directory".toList

def fileExists (p : Path) : Proc Bool := do
  let h ← readHost
  pure (h.files p).isSome

def fileAt (p : Path) : Proc FileState := do
  let h ← readHost
  match h.files p with
  | none => throw noSuchFile
  | some f => pure f

def readBytes (p : Path) : Proc Bytes := do
  let _ ← observe (.read p)
  let f ← fileAt p
  pure f.data

/-- How many bytes a character takes whose first is `b`. -/
def utf8Length (b : UInt8) : ℕ :=
  if b < 0x80 then 1 else if b < 0xe0 then 2 else if b < 0xf0 then 3 else 4

/-- The character that a sequence of bytes encodes in UTF-8. -/
def utf8Character (bs : Bytes) : Option Char :=
  let payload := (bs.headD 0).toNat % 2 ^ (if bs.length ≤ 1 then 7 else 7 - bs.length)
  let c := Char.ofNat (bs.tail.foldl (fun n b => n * 64 + b.toNat % 64) payload)
  if String.utf8EncodeChar c = bs then some c else none

/-- `data.decode("utf-8")`, past `skip` bytes of a character already read. -/
def decodeUtf8From : ℕ → Bytes → Option Str
  | _, [] => some []
  | skip + 1, _ :: bs => decodeUtf8From skip bs
  | 0, b :: bs => do
    let c ← utf8Character ((b :: bs).take (utf8Length b))
    let s ← decodeUtf8From (utf8Length b - 1) bs
    pure (c :: s)

/-- Every line ending is read as a line feed. -/
def universalNewlines : Str → Str
  | [] => []
  | '\r' :: '\n' :: s => '\n' :: universalNewlines s
  | c :: s => (if c = '\r' then '\n' else c) :: universalNewlines s

def notUtf8 : Exc := .raised "'utf-8' codec can't decode bytes".toList

/-- The text of a file with these bytes. -/
def decoded (data : Bytes) : Proc Str :=
  match decodeUtf8From 0 data with
  | none => throw notUtf8
  | some s => pure (universalNewlines s)

/-- `path.read_text(encoding="utf-8")`. -/
def readText (p : Path) : Proc Str := do
  let data ← readBytes p
  decoded data

def statMode (p : Path) : Proc ℕ := do
  let _ ← observe (.stat p)
  let f ← fileAt p
  pure f.mode

/-- Open for writing and write: the mode of an existing file is kept. -/
def writeFile (p : Path) (data : Bytes) : Proc Unit := do
  let _ ← external (.write p) (fun a t h => h.setFile p a.debris t)
    (fun _ t h => h.setFile p (some ⟨data, ((h.files p).map (·.mode)).getD 0o644⟩) t)

def chmod (p : Path) (mode : ℕ) : Proc Unit := do
  let f ← fileAt p
  perform (.chmod p) fun t h => h.setFile p (some { f with mode }) t

/-- `unlink(missing_ok=True)`. -/
def unlink (p : Path) : Proc Unit := perform (.unlink p) fun t h => h.setFile p none t

def replace (source destination : Path) : Proc Unit := do
  let f ← fileAt source
  perform (.replace source destination) fun t h =>
    (h.setFile destination (some f) t).setFile source none t

/-- `tempfile.mkstemp` in the directory of `p`. -/
def mkstemp (p : Path) : Proc Path := do
  perform (.mkstemp p) fun t h => h.setFile (.temporary p) (some ⟨[], 0o600⟩) t
  pure (.temporary p)

def mkdirParents (p : Path) : Proc Unit := perform (.mkdir p) fun _ h => h

/-- `chown -R` changes owners only, and its exit status is not checked. -/
def chown : Proc Unit := perform .chown fun _ h => h

def systemctl (verb : Verb) (s : Service) : Proc Unit := do
  let _ ← external (.systemctl verb s) (fun a _ h => { h with running := a.units })
    (fun _ t h => h.systemctl verb s t)

def daemonReload : Proc Unit := perform .daemonReload fun _ h => h

def getStatus (s : Service) : Proc Bool := do
  let _ ← external (.status s) (fun a _ h => { h with running := a.drift h.running })
    (fun a _ h => { h with running := a.drift h.running })
  let h ← readHost
  pure (h.running s)

/-- `service_running`: poll the status at most `iterations` times. -/
def serviceRunning (s : Service) : ℕ → Proc Bool
  | 0 => pure false
  | n + 1 => do
    if ← getStatus s then pure true else serviceRunning s n

/-- `Satoshi:([^/]+)/?` -/
def subversionPattern : Pattern :=
  .seqs [.text "Satoshi:".toList, .group 1 (.plus (.char (· != '/'))), .opt (.lit '/')]

/-- The loop of `wait_for_running_version`, with `attempts` requests left. -/
def pollVersion (user password : Str) : ℕ → Proc (Option Str)
  | 0 => pure none
  | n + 1 => do
    let a ← observe (.rpcPost user password)
    match a.reply with
    | .unavailable => pollVersion user password n
    | .subversion s =>
      match search subversionPattern s with
      | some m => do
        let t ← now
        modifyHost fun h => { h with answered := some (t, user, password) }
        pure (some (m.captured 1))
      | none => pollVersion user password n

def waitForRunningVersion (config : Config) : Proc (Option Str) :=
  pollVersion (config .rpcUser).orEmpty (config .rpcPassword).orEmpty 30

/-- Keep account of a recovery step. -/
def note (label : Attempt) (failure : Option Str) : Proc Unit :=
  modifyHost fun h => h.noted label failure

/-- Run a recovery step, note it, and report what it raised. -/
def attempt (label : Attempt) (step : Proc Unit) : Proc (Option Exc) := do
  let r ← outcome step
  note label (r.map Exc.text)
  pure r

/-- `f"{name}: {exc}"` -/
def failureText (label : Attempt) (failure : Str) : Str := label.title ++ ": ".toList ++ failure

/-- Run recovery steps in order, each guarded, and collect the failures. -/
def attemptAll : List (Attempt × Proc Unit) → Proc (List Str)
  | [] => pure []
  | (label, step) :: rest => do
    let r ← attempt label step
    let errors ← attemptAll rest
    pure ((r.map fun exc => failureText label exc.text).toList ++ errors)

end BitcoinRpcOperator.HostSystem
