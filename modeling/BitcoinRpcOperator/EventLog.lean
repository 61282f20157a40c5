import BitcoinRpcOperator.CharmHooks
import BitcoinRpcOperator.Redaction

/-!
# The event log

`_record_event` of `charm.py` and the handlers that call it. The log is kept with the stored
options: it outlives a hook or an action only when its handler returns. Two runs with
different credentials are compared.
-/

namespace BitcoinRpcOperator.EventLog
open Text ServiceConfiguration FallibleProcedures HostSystem ReleaseInstaller ConfigTransaction
open HostSteps GenerationFiles CharmHooks
open Redaction (redactRuntimeValue)
open PythonValues (PythonError)

def eventLogMax : ℕ := 256

structure Stored where
  options : Config
  eventLog : List Str

def setDefault (stored : Option Stored) (config : Config) : Stored := stored.getD ⟨config, []⟩

/-- `_record_event`, with the time as it is written. -/
def recordEvent (clock name : Str) (stored : Stored) : Stored :=
  { stored with eventLog := (stored.eventLog ++ [clock ++ "  ".toList ++ name]).rtake eventLogMax }

def keyText : Key → Str
  | .rpcUser => "rpc-user".toList
  | .rpcPassword => "rpc-password".toList
  | .serviceArgs => "service-args".toList
  | .version => "version".toList
  | .binaryUrl => "binary-url".toList
  | .rpcProxyFilter => "rpc-proxy-filter".toList
  | .rpcProxyVersion => "rpc-proxy-version".toList
  | .rpcProxyListen => "rpc-proxy-listen".toList
  | .rpcProxyExtendAllowlist => "rpc-proxy-extend-allowlist".toList
  | .disableWallet => "disable-wallet".toList
  | .collectorS3Credentials => "collector-s3-credentials".toList

def sensitiveConfig : List Key := [.rpcPassword, .rpcUser]

section
variable (redaction : Redaction.Library)

/-- What the summary says of the new value of a key. -/
def changeText (config : Config) (key : Key) : Except PythonError Str := do
  let value ← if key ∈ sensitiveConfig then pure "<redacted>".toList
    else redactRuntimeValue redaction (config key).toText
  return keyText key ++ '=' :: value

def configChangeSummary (stored config : Config) : Except PythonError Str := do
  let changes ← (trackedConfig.filter fun key => stored key ≠ config key).mapM
    (changeText redaction config)
  return ", ".toList.intercalate changes

inductive Hook where
  | install | start | stop | updateStatus | configChanged
  /-- With what `get_charm_version` returns. -/
  | upgradeCharm (version : Str)
  | getNodeHelp | getNodeInfo | printEventLog | printReadme
  | restartNode | startNode | stopNode
  /-- An event that stores nothing but the defaults. -/
  | unobserved
  deriving DecidableEq

/-- What the handler of a hook records first. -/
def eventName (stored config : Config) : Hook → Except PythonError (Option Str)
  | .install => .ok (some "install".toList)
  | .start => .ok (some "start".toList)
  | .stop => .ok (some "stop".toList)
  | .updateStatus | .unobserved => .ok none
  | .configChanged => do
    let summary ← configChangeSummary redaction stored config
    return some (if summary.isEmpty then "config-changed".toList
      else "config-changed  ".toList ++ summary)
  | .upgradeCharm version => .ok (some ("upgrade-charm  ".toList ++ version))
  | .getNodeHelp => .ok (some "get-node-help".toList)
  | .getNodeInfo => .ok (some "get-node-info".toList)
  | .printEventLog => .ok (some "print-event-log".toList)
  | .printReadme => .ok (some "print-readme".toList)
  | .restartNode => .ok (some "restart-node".toList)
  | .startNode => .ok (some "start-node".toList)
  | .stopNode => .ok (some "stop-node".toList)

end

def withRpcProxy (action : Proc Unit) : Proc Unit := do
  let installed ← fileExists .rpcProxyBinary
  runIf (installed = true) action

section
variable (lib : Library) (report : Hook → Config → Stored → Proc Unit)

/-- What a handler does once it has recorded itself, with the options it leaves. `report` is
what the actions do that only set results. -/
def afterRecord (config : Config) (stored : Stored) (hook : Hook) : Proc Config :=
  match hook with
  | .install => do
    onInstall lib config
    pure stored.options
  | .start => do
    startService
    startMonitor
    withRpcProxy startRpcProxy
    let _ ← updateStatus config
    pure stored.options
  | .stop => do
    stopService
    stopMonitor
    stopRpcProxy
    let _ ← updateStatus config
    pure stored.options
  | .updateStatus | .upgradeCharm _ => do
    let _ ← updateStatus config
    pure stored.options
  | .configChanged => onConfigChanged lib stored.options config
  | .getNodeHelp | .getNodeInfo | .printEventLog | .printReadme | .unobserved => do
    report hook config stored
    pure stored.options
  | .restartNode => do
    let _ ← observe .setStatus
    stopService
    startService
    withRpcProxy restartRpcProxy
    let _ ← updateStatus config
    pure stored.options
  | .startNode => do
    let _ ← observe .setStatus
    startService
    startMonitor
    withRpcProxy startRpcProxy
    let _ ← updateStatus config
    pure stored.options
  | .stopNode => do
    let _ ← observe .setStatus
    stopMonitor
    stopService
    stopRpcProxy
    let _ ← updateStatus config
    pure stored.options

/-- A hook or an action at a time, under a configuration, on a host that answers like
`environment`. -/
structure Dispatch where
  clock : Str
  config : Config
  hook : Hook
  environment : Environment

/-- What outlives a process of the charm. -/
structure Deployment where
  stored : Option Stored
  host : Host

variable (redaction : Redaction.Library)

/-- The handler of a dispatch: what it stores when it returns. -/
def handle (d : Dispatch) (stored : Stored) : Proc Stored :=
  match eventName redaction stored.options d.config d.hook with
  | .error e => throw (.raised e.name)
  | .ok name => do
    let stored := name.elim stored fun name => recordEvent d.clock name stored
    let options ← afterRecord lib report d.config stored d.hook
    pure { stored with options }

def ending (c : Deployment) (d : Dispatch) : EStateM.Result Exc World Stored :=
  handle lib report redaction d (setDefault c.stored d.config) d.environment (hookStart c.host)

/-- What is stored is kept only when the handler returns. -/
def dispatch (c : Deployment) (d : Dispatch) : Deployment :=
  match ending lib report redaction c d with
  | .ok stored w => ⟨some stored, w.host⟩
  | .error _ w => ⟨c.stored, w.host⟩

def run (c : Deployment) (ds : List Dispatch) : Deployment := ds.foldl (dispatch lib report redaction) c

def completes (c : Deployment) (d : Dispatch) : Bool := returnsNormally (ending lib report redaction c d)

def entries (c : Deployment) (d : Dispatch) : List Str :=
  match eventName redaction (setDefault c.stored d.config).options d.config d.hook with
  | .ok (some name) => [d.clock ++ "  ".toList ++ name]
  | _ => []

/-- All that the completed dispatches of a run record, in order. -/
def recorded (c : Deployment) : List Dispatch → List Str
  | [] => []
  | d :: ds =>
    (if completes lib report redaction c d then entries redaction c d else []) ++
      recorded (dispatch lib report redaction c d) ds

end

/-- The stored log; there is none before anything is stored. -/
def eventLog (c : Deployment) : List Str := (c.stored.map Stored.eventLog).getD []

def undeployed (h : Host) : Deployment := ⟨none, h⟩

/-- The same hook at the same time, with the same options except for the credentials. -/
structure SameButCredentials (d d' : Dispatch) : Prop where
  clock : d.clock = d'.clock
  hook : d.hook = d'.hook
  config : ∀ key, key ∉ sensitiveConfig → d.config key = d'.config key

/-- The tracked keys that a dispatch sees changed. -/
def changes (c : Deployment) (d : Dispatch) : Finset Key :=
  changedKeys (setDefault c.stored d.config).options d.config

section
variable (lib : Library) (report : Hook → Config → Stored → Proc Unit) (redaction : Redaction.Library)

/-- Two runs that differ in the credentials and in what the hosts do. At every
`config-changed` the same keys have changed, and the same hooks complete. -/
inductive Alike : Deployment → Deployment → List Dispatch → List Dispatch → Prop
  | nil (c c' : Deployment) : Alike c c' [] []
  | cons {c c' : Deployment} {d d' : Dispatch} {ds ds' : List Dispatch}
      (same : SameButCredentials d d')
      (changed : d.hook = .configChanged → changes c d = changes c' d')
      (completed : completes lib report redaction c d = completes lib report redaction c' d')
      (rest : Alike (dispatch lib report redaction c d) (dispatch lib report redaction c' d') ds ds') :
      Alike c c' (d :: ds) (d' :: ds')

end

/-- Entries that are dropped early would have been dropped later. -/
theorem rtake_append_rtake (n : ℕ) (l m : List Str) : (l.rtake n ++ m).rtake n = (l ++ m).rtake n := by
  simp only [List.rtake_eq_reverse_take_reverse, List.reverse_append, List.reverse_reverse,
    List.take_append, List.take_take]
  rw [min_eq_left (Nat.sub_le n _)]

theorem length_rtake_le (n : ℕ) (l : List Str) : (l.rtake n).length ≤ n := by
  rw [List.rtake, List.length_drop]
  omega

theorem rtake_of_length_le {n : ℕ} {l : List Str} (h : l.length ≤ n) : l.rtake n = l := by
  rw [List.rtake, Nat.sub_eq_zero_of_le h, List.drop_zero]

section
variable {lib : Library} {report : Hook → Config → Stored → Proc Unit} {redaction : Redaction.Library}
  {c c' : Deployment} {d d' : Dispatch} {ds ds' : List Dispatch}

theorem eventLog_setDefault (config : Config) : (setDefault c.stored config).eventLog = eventLog c := by
  unfold setDefault eventLog
  cases c.stored <;> rfl

theorem eventLog_recordEvent (clock name : Str) (stored : Stored) :
    (recordEvent clock name stored).eventLog =
      (stored.eventLog ++ [clock ++ "  ".toList ++ name]).rtake eventLogMax := by
  simp only [recordEvent]

/-- The rest of a handler leaves the log alone. -/
theorem wp_afterRecord {env : Environment} (procedure : Proc Config) (stored : Stored) (w : World) :
    wp env (do let options ← procedure; pure { stored with options })
      (fun r _ => r.eventLog = stored.eventLog) (fun _ _ => True) w := by
  simp only [wp_bind]
  exact wp_mono (wp_trivial _ _) (fun _ _ _ => rfl) fun _ _ _ => trivial

/-- A handler that returns has recorded its entry, and nothing else. -/
theorem eventLog_ending {stored : Stored} {w : World}
    (h : ending lib report redaction c d = .ok stored w) (hlength : (eventLog c).length ≤ eventLogMax) :
    stored.eventLog = (eventLog c ++ entries redaction c d).rtake eventLogMax := by
  unfold ending handle at h
  unfold entries
  cases hname : eventName redaction (setDefault c.stored d.config).options d.config d.hook with
  | error e =>
    rw [hname] at h
    cases h
  | ok name =>
    rw [hname] at h
    have hlog := wp_of_ok (wp_afterRecord _ _ _) h
    cases name with
    | none => rw [hlog, Option.elim, eventLog_setDefault, List.append_nil, rtake_of_length_le hlength]
    | some name => rw [hlog, Option.elim, eventLog_recordEvent, eventLog_setDefault]

/-- One dispatch. -/
theorem eventLog_dispatch (hlength : (eventLog c).length ≤ eventLogMax) :
    eventLog (dispatch lib report redaction c d) =
      (eventLog c ++ if completes lib report redaction c d then entries redaction c d else []).rtake
        eventLogMax := by
  unfold dispatch completes
  cases hending : ending lib report redaction c d with
  | ok stored w =>
    simp only [returnsNormally, if_true]
    exact eventLog_ending hending hlength
  | error e w =>
    simp only [returnsNormally, Bool.false_eq_true, if_false, List.append_nil]
    exact (rtake_of_length_le hlength).symm

/-- A run. -/
theorem eventLog_run (hlength : (eventLog c).length ≤ eventLogMax) :
    eventLog (run lib report redaction c ds) =
      (eventLog c ++ recorded lib report redaction c ds).rtake eventLogMax := by
  induction ds generalizing c with
  | nil =>
    rw [recorded, List.append_nil, rtake_of_length_le hlength]
    rfl
  | cons d ds ih =>
    have hstep := @eventLog_dispatch lib report redaction c d hlength
    have hrun : run lib report redaction c (d :: ds) =
      run lib report redaction (dispatch lib report redaction c d) ds := rfl
    rw [hrun, ih (hstep ▸ length_rtake_le _ _), hstep, rtake_append_rtake, recorded, List.append_assoc]

theorem changeText_same (h : SameButCredentials d d') (key : Key) :
    changeText redaction d.config key = changeText redaction d'.config key := by
  unfold changeText
  by_cases hkey : key ∈ sensitiveConfig
  · simp only [if_pos hkey]
  · simp only [if_neg hkey, h.config key hkey]

/-- The summary names the changed keys, and the values only of those that are no credentials. -/
theorem configChangeSummary_same (h : SameButCredentials d d') {stored stored' : Config}
    (hchanged : changedKeys stored d.config = changedKeys stored' d'.config) :
    configChangeSummary redaction stored d.config = configChangeSummary redaction stored' d'.config := by
  have hkeys : ∀ key ∈ trackedConfig, decide (stored key ≠ d.config key) =
      decide (stored' key ≠ d'.config key) := by
    intro key hkey
    have hmem : key ∈ changedKeys stored d.config ↔ key ∈ changedKeys stored' d'.config := by
      rw [hchanged]
    have hiff : stored key ≠ d.config key ↔ stored' key ≠ d'.config key := by
      simpa only [changedKeys, Finset.mem_filter, List.mem_toFinset, hkey, true_and] using hmem
    exact decide_eq_decide.2 hiff
  have htexts : changeText redaction d.config = changeText redaction d'.config :=
    funext (changeText_same h)
  rw [configChangeSummary, configChangeSummary, List.filter_congr hkeys, htexts]

theorem entries_same (h : SameButCredentials d d')
    (hchanged : d.hook = .configChanged → changes c d = changes c' d') :
    entries redaction c d = entries redaction c' d' := by
  have hname : eventName redaction (setDefault c.stored d.config).options d.config d.hook =
      eventName redaction (setDefault c'.stored d'.config).options d'.config d'.hook := by
    rw [← h.hook]
    cases hhook : d.hook with
    | configChanged =>
      simp only [eventName]
      rw [configChangeSummary_same h (hchanged hhook)]
    | _ => rfl
  rw [entries, entries, hname, h.clock]

theorem recorded_same (h : Alike lib report redaction c c' ds ds') :
    recorded lib report redaction c ds = recorded lib report redaction c' ds' := by
  induction h with
  | nil c c' => rfl
  | cons same changed completed rest ih =>
    rw [recorded, recorded, completed, entries_same same changed, ih]

theorem Alike.take (h : Alike lib report redaction c c' ds ds') (n : ℕ) :
    Alike lib report redaction c c' (ds.take n) (ds'.take n) := by
  induction h generalizing n with
  | nil c c' =>
    rw [List.take_nil]
    exact .nil c c'
  | cons same changed completed rest ih =>
    cases n with
    | zero => exact .nil _ _
    | succ n => exact .cons same changed completed (ih n)

theorem eventLog_undeployed (h : Host) :
    eventLog (run lib report redaction (undeployed h) ds) =
      (recorded lib report redaction (undeployed h) ds).rtake eventLogMax := by
  have hempty : eventLog (undeployed h) = [] := rfl
  have hlength : (eventLog (undeployed h)).length ≤ eventLogMax := by
    rw [hempty]
    exact Nat.zero_le _
  rw [eventLog_run hlength, hempty, List.nil_append]

end

/-- After every step of two such runs the logs are the same, and they are the newest entries
that have been recorded. -/
theorem eventLog_noninterference {lib : Library} {report : Hook → Config → Stored → Proc Unit}
    {redaction : Redaction.Library} {h h' : Host} {ds ds' : List Dispatch}
    (hruns : Alike lib report redaction (undeployed h) (undeployed h') ds ds') (n : ℕ) :
    eventLog (run lib report redaction (undeployed h) (ds.take n)) =
        eventLog (run lib report redaction (undeployed h') (ds'.take n)) ∧
      eventLog (run lib report redaction (undeployed h) (ds.take n)) =
        (recorded lib report redaction (undeployed h) (ds.take n)).rtake eventLogMax ∧
      eventLog (run lib report redaction (undeployed h') (ds'.take n)) =
        (recorded lib report redaction (undeployed h') (ds'.take n)).rtake eventLogMax := by
  refine ⟨?_, eventLog_undeployed h, eventLog_undeployed h'⟩
  rw [eventLog_undeployed, eventLog_undeployed, recorded_same (hruns.take n)]

/-- An install without options, and a password that is set later. -/
def installed : Dispatch := ⟨"2026-07-06 00:00:00 UTC".toList, noOptions, .install, ReleaseAtomicity.calm⟩

def passwordSet (password : Str) : Dispatch :=
  ⟨"2026-07-06 00:05:00 UTC".toList, Function.update noOptions .rpcPassword (.str password),
    .configChanged, ReleaseAtomicity.calm⟩

def silent (_ : Hook) (_ : Config) (_ : Stored) : Proc Unit := pure ()

def withPassword (password : Str) : List Dispatch := [installed, passwordSet password]

theorem sameButCredentials_passwordSet (p q : Str) : SameButCredentials (passwordSet p) (passwordSet q) := by
  refine ⟨rfl, rfl, ?_⟩
  intro key hkey
  have hne : key ≠ .rpcPassword := by
    rintro rfl
    exact hkey (List.mem_cons_self ..)
  change Function.update noOptions _ _ key = Function.update noOptions _ _ key
  rw [Function.update_of_ne hne, Function.update_of_ne hne]

theorem eventLog_passwords :
    eventLog (run ReleaseAtomicity.emptyMirror silent Redaction.readsNothing
        (undeployed ReleaseAtomicity.freshWorld.host) ((withPassword "hunter2".toList).take 2)) =
      eventLog (run ReleaseAtomicity.emptyMirror silent Redaction.readsNothing
        (undeployed ReleaseAtomicity.freshWorld.host) ((withPassword "swordfish".toList).take 2)) := by
  have hruns : Alike ReleaseAtomicity.emptyMirror silent Redaction.readsNothing
      (undeployed ReleaseAtomicity.freshWorld.host) (undeployed ReleaseAtomicity.freshWorld.host)
      (withPassword "hunter2".toList) (withPassword "swordfish".toList) := by
    refine .cons ⟨rfl, rfl, fun _ _ => rfl⟩ (fun h => by cases h) rfl ?_
    refine .cons (sameButCredentials_passwordSet _ _) (fun _ => ?_) ?_ (.nil _ _)
    · decide +kernel
    · decide +kernel
  exact (eventLog_noninterference hruns 2).1

end BitcoinRpcOperator.EventLog
