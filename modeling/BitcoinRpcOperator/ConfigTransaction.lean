import BitcoinRpcOperator.ReleaseInstaller

/-!
# Configuration transactions

The part of `utils.py` that writes one generation of managed files, activates it,
and restores every managed file and service when a step raises.
-/

namespace BitcoinRpcOperator.ConfigTransaction
open Text ServiceConfiguration FallibleProcedures HostSystem ReleaseInstaller

def restartService : Proc Unit := systemctl .restart .node

def startService : Proc Unit := systemctl .start .node

def stopService : Proc Unit := systemctl .stop .node

def restartMonitor : Proc Unit := systemctl .restart .monitor

def startMonitor : Proc Unit := systemctl .start .monitor

def stopMonitor : Proc Unit := systemctl .stop .monitor

def restartRpcProxy : Proc Unit := systemctl .restart .rpcProxy

def startRpcProxy : Proc Unit := systemctl .start .rpcProxy

def stopRpcProxy : Proc Unit := systemctl .stop .rpcProxy

/-- The callables `install_bitcoin` hands to `install_release`. -/
def nodeControl (config : Config) : Control where
  isRunning := getStatus .node
  stop := stopService
  start := startService
  waitForRunningVersion := waitForRunningVersion config

def installBitcoin (lib : Library) (version : Str) (config : Config) (binaryUrl : Str) :
    Proc Unit := do
  installRelease lib version binaryUrl (nodeControl config)
  runIf (¬ version.isEmpty) chown

def installRpcProxy (lib : Library) (version : Str) : Proc Unit :=
  runIf (¬ version.isEmpty) do
    let response ← fetch lib (replaceAll "VERSION".toList version rpcProxyDlUrl)
    let tmp ← mkstemp .rpcProxyBinary
    onRaise
      (do writeFile tmp response.content
          chmod tmp 0o755
          replace tmp .rpcProxyBinary)
      (unlink tmp)
    chown

/-- `shutil.copyfile` from a shipped template. -/
def copyTemplate (lib : Library) (t : Template) (p : Path) : Proc Unit :=
  writeFile p (lib.template t)

/-- `path.exists() and path.read_text() == content` -/
def fileHolds (p : Path) (content : Str) : Proc Bool := do
  let present ← fileExists p
  match present with
  | true => do
    let text ← readText p
    pure (text == content)
  | false => pure false

def installServiceFile (lib : Library) (s : Service) : Proc Bool := do
  let content ← decoded (lib.template (.unit s))
  let same ← fileHolds (.unit s) content
  match same with
  | true => pure false
  | false => do
    copyTemplate lib (.unit s) (.unit s)
    daemonReload
    pure true

def updateServiceArgs (config : Config) (restart : Bool) : Proc Bool := do
  runIf restart stopService
  let same ← fileHolds (.env .node) (renderNodeEnv config)
  writeFile (.env .node) (utf8 (renderNodeEnv config))
  runIf restart startService
  pure !same

def writeMonitorEnvFile (config : Config) : Proc Unit :=
  writeFile (.env .monitor) (utf8 (renderMonitorEnv config))

def writeRpcProxyEnvFile (config : Config) : Proc Unit :=
  writeFile (.env .rpcProxy) (utf8 (renderRpcProxyEnv config))

def installBitcoindMonitor (lib : Library) (config : Config) (restart : Bool) : Proc Unit := do
  mkdirParents .monitorScript
  copyTemplate lib .monitorScript .monitorScript
  writeMonitorEnvFile config
  runIf restart restartMonitor

def installRpcProxyService (lib : Library) (config : Config) (restart : Bool) : Proc Unit := do
  let _ ← installServiceFile lib .rpcProxy
  writeRpcProxyEnvFile config
  runIf restart restartRpcProxy

structure Snapshot where
  files : List (Path × Option FileState)
  running : Service → Bool

def captureFile (p : Path) : Proc (Option FileState) := do
  let present ← fileExists p
  match present with
  | true => do
    let data ← readBytes p
    let mode ← statMode p
    pure (some ⟨data, mode⟩)
  | false => pure none

def captureFiles : List Path → Proc (List (Path × Option FileState))
  | [] => pure []
  | p :: ps => do
    let f ← captureFile p
    let rest ← captureFiles ps
    pure ((p, f) :: rest)

def captureConfigTransaction : Proc Snapshot := do
  let files ← captureFiles Path.transactionPaths
  let node ← getStatus .node
  let monitor ← getStatus .monitor
  let rpcProxy ← getStatus .rpcProxy
  pure ⟨files, fun s => match s with
    | .node => node
    | .monitor => monitor
    | .rpcProxy => rpcProxy⟩

def restoreFile (p : Path) : Option FileState → Proc Unit
  | none => unlink p
  | some f => do
    mkdirParents p
    let tmp ← mkstemp p
    onRaise
      (do writeFile tmp f.data
          chmod tmp f.mode
          replace tmp p)
      (unlink tmp)

/-- Account for a readiness check and report its failure. -/
def readinessErrors (s : Service) (failure : Option Str) : Proc (List Str) := do
  note (.readiness s) failure
  pure (failure.map (failureText (.readiness s))).toList

/-- The node's part of `_restored_service_errors`; a check that raises is caught. -/
def nodeReadinessErrors (previous : Config) : Proc (List Str) := do
  let failure ← tryCatch
    (do let version ← waitForRunningVersion previous
        pure (if version.isNone then some "Bitcoin Core RPC did not recover".toList else none))
    fun exc => pure (some exc.text)
  readinessErrors .node failure

/-- The other services' part; a check that raises is not caught. -/
def serviceReadinessErrors (s : Service) : Proc (List Str) := do
  let up ← tryCatch (serviceRunning s 4) fun exc => do
    note (.uncaught s) (some exc.text)
    throw exc
  readinessErrors s (if up then none else some "service did not recover".toList)

/-- The readiness check of a service that ran before. -/
def restoredErrors (snapshot : Snapshot) (previous : Config) (s : Service) : Proc (List Str) :=
  if snapshot.running s then
    match s with
    | .node => nodeReadinessErrors previous
    | .monitor | .rpcProxy => serviceReadinessErrors s
  else pure []

def restoredServiceErrors (snapshot : Snapshot) (previous : Config) : Proc (List Str) := do
  let node ← restoredErrors snapshot previous .node
  let monitor ← restoredErrors snapshot previous .monitor
  let proxy ← restoredErrors snapshot previous .rpcProxy
  pure (node ++ monitor ++ proxy)

def stopOperations : List (Attempt × Proc Unit) :=
  [(.stop .rpcProxy, stopRpcProxy), (.stop .monitor, stopMonitor), (.stop .node, stopService)]

def restoreOperations (files : List (Path × Option FileState)) : List (Attempt × Proc Unit) :=
  files.map fun e => (.restore e.1, restoreFile e.1 e.2)

def startOperations (running : Service → Bool) : List (Attempt × Proc Unit) :=
  [(.daemonReload, daemonReload)] ++
  (if running .node then [(.start .node, startService)] else []) ++
  (if running .monitor then [(.start .monitor, startMonitor)] else []) ++
  (if running .rpcProxy then [(.start .rpcProxy, startRpcProxy)] else [])

/-- The guarded operations of `_rollback_config_transaction`, in order. -/
def rollbackOperations (snapshot : Snapshot) : List (Attempt × Proc Unit) :=
  stopOperations ++ (restoreOperations snapshot.files ++ startOperations snapshot.running)

def rollbackConfigTransaction (snapshot : Snapshot) (cause : Exc) (previous : Config) :
    Proc Unit := do
  let failed ← attemptAll (rollbackOperations snapshot)
  let notReady ← restoredServiceErrors snapshot previous
  runIf (failed ++ notReady ≠ []) do
    throw (.runtimeError ("config rollback failed (".toList ++
      "; ".toList.intercalate (failed ++ notReady) ++ [')']) (some cause))

/-- Which parts of the generation a set of changed keys affects. -/
structure Affected where
  credentials : Bool
  node : Bool
  proxy : Bool

def affected (changed : Finset Key) : Affected :=
  let credentials := decide (({.rpcUser, .rpcPassword} ∩ changed : Finset Key).Nonempty)
  { credentials
    node := decide (({.rpcUser, .rpcPassword, .serviceArgs, .disableWallet, .version,
      .binaryUrl} ∩ changed : Finset Key).Nonempty)
    proxy := credentials || decide (({.rpcProxyFilter, .rpcProxyVersion, .rpcProxyListen,
      .rpcProxyExtendAllowlist} ∩ changed : Finset Key).Nonempty) }

def writeConfigGeneration (lib : Library) (config : Config) (changed : Finset Key)
    (a : Affected) : Proc Unit := do
  runIf (.rpcProxyVersion ∈ changed) (installRpcProxy lib (config .rpcProxyVersion).orEmpty)
  runIf a.node do
    let _ ← updateServiceArgs config false
  runIf a.credentials (installBitcoindMonitor lib config false)
  runIf a.proxy (installRpcProxyService lib config false)

/-- Raise unless `ready`. -/
def require (ready : Bool) (message : Str) : Proc Unit :=
  runIf (¬ ready) (throw (.runtimeError message none))

def releaseKeys : Finset Key := {.version, .binaryUrl}

/-- The node's part of `_activate_config_generation`. -/
def activateNode (lib : Library) (config : Config) (changed : Finset Key) (snapshot : Snapshot)
    (a : Affected) : Proc Unit :=
  if (releaseKeys ∩ changed).Nonempty then
    installBitcoin lib (config .version).orEmpty config (config .binaryUrl).orEmpty
  else runIf (a.node && snapshot.running .node) do
    restartService
    let version ← waitForRunningVersion config
    require version.isSome "Bitcoin Core did not become RPC-ready after config change".toList

def activateMonitor (snapshot : Snapshot) (a : Affected) : Proc Unit :=
  runIf (a.credentials && snapshot.running .monitor) do
    restartMonitor
    let up ← serviceRunning .monitor 4
    require up "bitcoind monitor did not become ready after config change".toList

def activateRpcProxy (snapshot : Snapshot) (a : Affected) : Proc Unit :=
  runIf (a.proxy && snapshot.running .rpcProxy) do
    let present ← fileExists .rpcProxyBinary
    require present "RPC proxy binary is missing after config change".toList
    restartRpcProxy
    let up ← serviceRunning .rpcProxy 4
    require up "RPC proxy did not become ready after config change".toList

def checkNode (snapshot : Snapshot) : Proc Unit :=
  runIf (snapshot.running .node) do
    let up ← serviceRunning .node 4
    require up "Bitcoin Core did not remain running after config change".toList

def activateConfigGeneration (lib : Library) (config : Config) (changed : Finset Key)
    (snapshot : Snapshot) (a : Affected) : Proc Unit := do
  activateNode lib config changed snapshot a
  activateMonitor snapshot a
  activateRpcProxy snapshot a
  checkNode snapshot

/-- Write and activate one generation: the body that a rollback guards. -/
def applyGeneration (lib : Library) (config : Config) (changed : Finset Key)
    (snapshot : Snapshot) : Proc Unit := do
  writeConfigGeneration lib config changed (affected changed)
  activateConfigGeneration lib config changed snapshot (affected changed)

def applyConfigTransaction (lib : Library) (config previous : Config) (changed : Finset Key) :
    Proc Unit :=
  runIf (changed ≠ ∅) do
    let snapshot ← captureConfigTransaction
    tryCatch (applyGeneration lib config changed snapshot) fun exc => do
      rollbackConfigTransaction snapshot exc previous
      throw exc

end BitcoinRpcOperator.ConfigTransaction
