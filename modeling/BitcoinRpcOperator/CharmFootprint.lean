import BitcoinRpcOperator.EventLog

/-!
# What runs of the charm leave alone

Hooks and actions in any order, completing or not, on hosts that answer in any way: which
files and options each kind of handler can change, and what the others ask for.
-/

namespace BitcoinRpcOperator.HostFrames.Respects
open FallibleProcedures HostSystem ConfigTransaction TransactionAtomicity

variable {env : Environment} {R : World → World → Prop} [Std.Refl R] [IsTrans World R] {P : Permit}

theorem rollbackConfigTransaction (hR : Respects R P) (hs : ∀ s, P.services s)
    (ha : ∀ l, P.account l) {snapshot : Snapshot}
    (hfile : ∀ e ∈ snapshot.files, P.file e.1 ∧ P.file (.temporary e.1)) (cause : Exc)
    (previous : ServiceConfiguration.Config) :
    Stays env R (rollbackConfigTransaction snapshot cause previous) := by
  have hops : ∀ op ∈ rollbackOperations snapshot, isCaught op.1 ∧ Stays env R op.2 := by
    intro op hop
    simp only [rollbackOperations, List.mem_append] at hop
    rcases hop with hop | hop | hop
    · exact stopOperations_keep hR hs op hop
    · exact restoreOperations_keep hR hfile op hop
    · exact startOperations_keep hR hs _ op hop
  exact (attemptAll_keep hR (fun _ _ => ha _) hops).bind fun _ =>
    (hR.restoredServiceErrors hs (fun _ => ⟨ha _, ha _⟩) snapshot previous).bind fun _ =>
    .runIf fun _ => .throw _

end BitcoinRpcOperator.HostFrames.Respects

namespace BitcoinRpcOperator.CharmFootprint
open Text ServiceConfiguration FallibleProcedures HostSystem ReleaseInstaller ConfigTransaction
open HostFrames TransactionAtomicity CharmHooks EventLog

def runCommand (p : Path) : Proc Unit := do
  let _ ← observe (.execute p)

/-- `cat`, which finds the file or not. -/
def cat (p : Path) : Proc Unit := do
  let _ ← observe (.read p)

def getClientHelpOutput : Proc Unit := do
  let present ← fileExists .binary
  runIf (present = true) (runCommand .binary)

/-- `get_client_proc_cmdline`, of whatever process there is. -/
def getClientProcCmdline : Proc Unit := do
  runCommand (.other "pgrep".toList)
  cat (.other "/proc/cmdline".toList)

/-- What `_on_get_node_info_action` asks of the host. -/
def getNodeInfo : Proc Unit := do
  runCommand (.other "du".toList)
  runCommand .binary
  cat (.env .node)
  getClientProcCmdline
  let _ ← fileExists .rpcProxyBinary
  runCommand .rpcProxyBinary
  let _ ← getStatus .rpcProxy
  cat (.env .rpcProxy)

/-- What a handler asks of the host before it sets its results. The charm's own directory, with
its version and its readme, is not part of the host. -/
def setResults (hook : Hook) (_ : Config) (_ : Stored) : Proc Unit :=
  match hook with
  | .getNodeHelp => getClientHelpOutput
  | .getNodeInfo => getNodeInfo
  | _ => pure ()

/-- Operations that leave files and processes alone. -/
def isObservation : Op → Bool
  | .status _ | .rpcPost _ _ | .read _ | .execute _ | .workloadVersion | .setStatus | .collectMetadata => true
  | _ => false

section
variable {env : Environment} {R : World → World → Prop} [Std.Refl R] [IsTrans World R]

/-- Questions, asked for their status or otherwise, stay within `R`. -/
structure Asking (env : Environment) (R : World → World → Prop) : Prop where
  observe : ∀ op, isObservation op = true → isQuiet op = true → Stays env R (observe op)
  status : ∀ s, Stays env R (getStatus s)
  version : ∀ config, Stays env R (waitForRunningVersion config)

theorem serviceRunning_asks (h : Asking env R) (s : Service) (n : ℕ) :
    Stays env R (serviceRunning s n) := by
  induction n with
  | zero => exact .pure _
  | succ n ih => exact (h.status s).bind fun _ => .ite (.pure _) ih

theorem setStatus_asks (h : Asking env R) (status : UnitStatus) : Stays env R (setStatus status) :=
  (h.observe _ rfl rfl).bind fun _ => .pure _

theorem readyStatus_asks (h : Asking env R) (config : Config) (message : Str) :
    Stays env R (readyStatus config message) := by
  refine (h.version config).bind fun version => ?_
  cases version with
  | none => exact setStatus_asks h _
  | some _ =>
    refine (h.observe _ rfl rfl).bind fun collected => ?_
    cases collected.metadataError with
    | none => exact setStatus_asks h _
    | some _ => exact setStatus_asks h _

theorem updateStatus_asks (h : Asking env R) (config : Config) :
    Stays env R (CharmHooks.updateStatus config) := by
  refine (h.observe _ rfl rfl).bind fun _ => (Respects.fileExists _).bind fun node => ?_
  cases node with
  | false => exact setStatus_asks h _
  | true =>
    refine (Respects.fileExists _).bind fun proxy => ?_
    cases proxy with
    | false => exact setStatus_asks h _
    | true =>
      exact (serviceRunning_asks h _ _).bind fun _ => (serviceRunning_asks h _ _).bind fun _ =>
        (serviceRunning_asks h _ _).bind fun _ => .ite (readyStatus_asks h _ _) (setStatus_asks h _)

theorem setResults_asks (h : Asking env R) (hook : Hook) (config : Config) (stored : Stored) :
    Stays env R (setResults hook config stored) := by
  have command : ∀ p, Stays env R (runCommand p) := fun p => (h.observe _ rfl rfl).bind fun _ => .pure _
  have file : ∀ p, Stays env R (cat p) := fun p => (h.observe _ rfl rfl).bind fun _ => .pure _
  have cmdline : Stays env R getClientProcCmdline := (command _).bind fun _ => file _
  cases hook with
  | getNodeHelp => exact (Respects.fileExists _).bind fun _ => .runIf fun _ => command _
  | getNodeInfo =>
    exact (command _).bind fun _ => (command _).bind fun _ => (file _).bind fun _ => cmdline.bind fun _ =>
      (Respects.fileExists _).bind fun _ => (command _).bind fun _ => (h.status _).bind fun _ => file _
  | install | start | stop | updateStatus | configChanged | upgradeCharm _ | printEventLog | printReadme
  | restartNode | startNode | stopNode | unobserved => exact .pure _

theorem asking_of_respects {P : Permit} (hR : Respects R P) (hs : ∀ s, P.services s) : Asking env R where
  observe := fun _ _ hquiet => hR.observe (.inl hquiet)
  status := fun s => hR.getStatus (hs s)
  version := hR.waitForRunningVersion

end

/-- Hooks that lay down files. -/
def Hook.writes : Hook → Bool
  | .install | .configChanged => true
  | _ => false

def Hook.commands : Hook → Bool
  | .install | .configChanged | .start | .stop | .restartNode | .startNode | .stopNode => true
  | _ => false

/-- What a run of all hooks needs to be permitted. -/
structure Permit.Manages (P : Permit) : Prop where
  file : ∀ p, Touchable p → P.file p
  services : ∀ s, P.services s
  account : ∀ l, P.account l

section
variable {env : Environment} {R : World → World → Prop} [Std.Refl R] [IsTrans World R] {P : Permit}

theorem releases_of_manages (h : Permit.Manages P) : P.Releases where
  stage := fun _ => h.file _ (.inr rfl)
  destination := fun t => h.file _ (touching_releases.destination t)
  services := h.services _
  account := fun l _ => h.account l

theorem managed (h : Permit.Manages P) {p : Path} (hp : p ∈ Path.transactionPaths) : P.file p :=
  h.file p (.inl hp)

theorem applyConfigTransaction_stays (hR : Respects R P) (hP : Permit.Manages P) (lib : Library)
    (config previous : Config) (changed : Finset Key) :
    Stays env R (applyConfigTransaction lib config previous changed) := by
  have captured : ∀ w : World, wp env captureConfigTransaction
      (fun snapshot _ => ∀ e ∈ snapshot.files, e.1 ∈ Path.transactionPaths) (fun _ _ => True) w := by
    intro w
    refine wp_mono (capture_files w) (fun snapshot _ h e he => ?_) fun _ _ _ => trivial
    rw [h] at he
    obtain ⟨p, hp, rfl⟩ := List.mem_map.1 he
    exact hp
  refine .runIf fun _ => (hR.captureConfigTransaction hP.services).bind_of captured fun snapshot hsnap => ?_
  have hfile : ∀ e ∈ snapshot.files, P.file e.1 ∧ P.file (.temporary e.1) := fun e he =>
    ⟨managed hP (hsnap e he), hP.file _ (.inr rfl)⟩
  exact (hR.applyGeneration (releases_of_manages hP) hP.services (fun _ => managed hP)
    (hP.file _ (.inr rfl)) lib config changed snapshot).tryCatch fun exc =>
      (hR.rollbackConfigTransaction hP.services hP.account hfile exc previous).bind fun _ => .throw _

theorem onConfigChanged_stays (hR : Respects R P) (hP : Permit.Manages P) (lib : Library)
    (stored config : Config) : Stays env R (onConfigChanged lib stored config) :=
  (applyConfigTransaction_stays hR hP lib _ _ _).bind fun _ =>
    (updateStatus_asks (asking_of_respects hR hP.services) config).bind fun _ => .pure _

theorem installService_stays (hR : Respects R P) (hP : Permit.Manages P) (lib : Library) (s : Service) :
    Stays env R (installServiceFile lib s) :=
  hR.installServiceFile (managed hP (by cases s <;> decide)) lib

theorem createUser_stays (hR : Respects R P) (hsetUp : ∀ op, isQuiet op = true → Stays env R (setUp op)) :
    Stays env R createUser :=
  (hsetUp _ rfl).bind fun _ => (hsetUp _ rfl).bind fun _ => (hsetUp _ rfl).bind fun _ => hR.chown

theorem installDependencies_stays (hR : Respects R P)
    (hsetUp : ∀ op, isQuiet op = true → Stays env R (setUp op)) : Stays env R installDependencies := by
  have pip : ∀ packages, Stays env R (pipInstall packages) := by
    intro packages
    induction packages with
    | nil => exact .pure _
    | cons _ packages ih => exact (hsetUp _ rfl).bind fun _ => ih
  exact (hsetUp _ rfl).bind fun _ => (hsetUp _ rfl).bind fun _ => (hR.mkdirParents _).bind fun _ =>
    (hsetUp _ rfl).bind fun _ => (pip _).bind fun _ => (hsetUp _ rfl).bind fun _ => hR.chown

theorem onInstall_stays (hR : Respects R P) (hP : Permit.Manages P)
    (hsetUp : ∀ op, isQuiet op = true → Stays env R (setUp op)) (lib : Library) (config : Config) :
    Stays env R (onInstall lib config) := by
  have user : Stays env R createUser := createUser_stays hR hsetUp
  have packages : Stays env R installDependencies := installDependencies_stays hR hsetUp
  have node : Stays env R (installNode lib config) :=
    (hR.installBitcoin (releases_of_manages hP) lib _ config _).bind fun _ =>
      (installService_stays hR hP lib _).bind fun _ =>
      (hR.updateServiceArgs (managed hP (by decide)) config).bind fun _ => .pure _
  have monitor : Stays env R (installMonitor lib config) :=
    (installService_stays hR hP lib _).bind fun _ =>
      hR.installBitcoindMonitor (managed hP (by decide)) (managed hP (by decide)) lib config
  have proxy : Stays env R (installProxy lib config) :=
    (hR.installRpcProxy (managed hP (by decide)) (hP.file _ (.inr rfl)) lib _).bind fun _ =>
      hR.installRpcProxyService (managed hP (by decide)) (managed hP (by decide)) lib config
  exact user.bind fun _ => packages.bind fun _ => node.bind fun _ => monitor.bind fun _ =>
    proxy.bind fun _ => hR.chown

theorem withRpcProxy_stays {action : Proc Unit} (h : Stays env R action) :
    Stays env R (withRpcProxy action) :=
  (Respects.fileExists _).bind fun _ => .runIf fun _ => h

/-- A handler that lays down no files needs nothing but its services. -/
theorem operates_stays (hR : Respects R P) (hs : ∀ s, P.services s) (lib : Library) (config : Config)
    (stored : Stored) {hook : Hook} (hhook : Hook.writes hook = false) :
    Stays env R (afterRecord lib setResults config stored hook) := by
  have asks : Asking env R := asking_of_respects hR hs
  have commanded : ∀ (v : Verb) (s : Service), Stays env R (systemctl v s) := fun v s =>
    hR.systemctl (hs s) v
  have status : Stays env R (do let _ ← CharmHooks.updateStatus config; pure stored.options) :=
    (updateStatus_asks asks config).bind fun _ => .pure _
  have proxy : ∀ v : Verb, Stays env R (withRpcProxy (systemctl v .rpcProxy)) := fun v =>
    withRpcProxy_stays (commanded v _)
  have maintenance : Stays env R (observe .setStatus) := hR.observe (.inl rfl)
  cases hook with
  | install | configChanged => cases hhook
  | start =>
    exact (commanded _ _).bind fun _ => (commanded _ _).bind fun _ => (proxy _).bind fun _ => status
  | stop =>
    exact (commanded _ _).bind fun _ => (commanded _ _).bind fun _ => (commanded _ _).bind fun _ => status
  | updateStatus | upgradeCharm _ => exact status
  | getNodeHelp | getNodeInfo | printEventLog | printReadme | unobserved =>
    exact (setResults_asks asks _ config stored).bind fun _ => .pure _
  | restartNode =>
    exact maintenance.bind fun _ => (commanded _ _).bind fun _ => (commanded _ _).bind fun _ =>
      (proxy _).bind fun _ => status
  | startNode =>
    exact maintenance.bind fun _ => (commanded _ _).bind fun _ => (commanded _ _).bind fun _ =>
      (proxy _).bind fun _ => status
  | stopNode =>
    exact maintenance.bind fun _ => (commanded _ _).bind fun _ => (commanded _ _).bind fun _ =>
      (commanded _ _).bind fun _ => status

theorem afterRecord_stays (hR : Respects R P) (hP : Permit.Manages P) (lib : Library) (config : Config)
    (stored : Stored) {hook : Hook}
    (hsetUp : hook = .install → ∀ op, isQuiet op = true → Stays env R (setUp op)) :
    Stays env R (afterRecord lib setResults config stored hook) := by
  cases hhook : Hook.writes hook with
  | false => exact operates_stays hR hP.services lib config stored hhook
  | true =>
    cases hook with
    | install => exact (onInstall_stays hR hP (hsetUp rfl) lib config).bind fun _ => .pure _
    | configChanged => exact onConfigChanged_stays hR hP lib stored.options config
    | start | stop | updateStatus | upgradeCharm _ | getNodeHelp | getNodeInfo | printEventLog
    | printReadme | restartNode | startNode | stopNode | unobserved => cases hhook

end

theorem endWorld_of_stays {α : Type} {env : Environment} {R : World → World → Prop} {m : Proc α}
    (h : Stays env R m) (w : World) : R w (endWorld (m env w)) := by
  have hw := h w
  unfold wp at hw
  cases hm : m env w with
  | ok a w' => simpa only [hm, endWorld] using hw
  | error e w' => simpa only [hm, endWorld] using hw

section
variable {lib : Library} {redaction : Redaction.Library} {c : Deployment} {d : Dispatch}
  {ds : List Dispatch}

theorem dispatch_host : (dispatch lib setResults redaction c d).host =
    (endWorld (ending lib setResults redaction c d)).host := by
  unfold dispatch
  cases ending lib setResults redaction c d <;> rfl

/-- A handler moves the host as what follows its record does. -/
theorem ending_stays {R : World → World → Prop} [Std.Refl R] [IsTrans World R]
    (h : ∀ stored, Stays d.environment R (afterRecord lib setResults d.config stored d.hook)) :
    R (hookStart c.host) (endWorld (ending lib setResults redaction c d)) := by
  refine endWorld_of_stays (m := handle lib setResults redaction d (setDefault c.stored d.config)) ?_ _
  unfold handle
  cases eventName redaction (setDefault c.stored d.config).options d.config d.hook with
  | error e => exact .throw _
  | ok name => exact (h _).bind fun _ => .pure _

theorem dispatch_files {S : Path → Prop} (h : ∀ stored, Stays d.environment (SameOutside S)
    (afterRecord lib setResults d.config stored d.hook)) {p : Path} (hp : ¬ S p) :
    (dispatch lib setResults redaction c d).host.files p = c.host.files p := by
  rw [dispatch_host]
  exact (ending_stays h p hp).1

theorem run_cons : run lib setResults redaction c (d :: ds) =
    run lib setResults redaction (dispatch lib setResults redaction c d) ds := rfl

/-- What every dispatch of a run leaves alone, the run leaves alone. -/
theorem run_eq_of_dispatch {α : Type} (view : Deployment → α)
    (h : ∀ d ∈ ds, ∀ c, view (dispatch lib setResults redaction c d) = view c) :
    view (run lib setResults redaction c ds) = view c := by
  induction ds generalizing c with
  | nil => rfl
  | cons d ds ih =>
    rw [run_cons, ih fun d hd => h d (List.mem_cons_of_mem _ hd)]
    exact h d List.mem_cons_self c

/-- Whenever `m` returns, it returns `b`. -/
def Yields {α : Type} (env : Environment) (b : α) (m : Proc α) : Prop :=
  ∀ w, wp env m (fun a _ => a = b) (fun _ _ => True) w

theorem Yields.pure {α : Type} {env : Environment} (b : α) : Yields env b (Pure.pure b) := fun _ => rfl

theorem Yields.bind {α β : Type} {env : Environment} {b : α} {m : Proc β} {f : β → Proc α}
    (h : ∀ a, Yields env b (f a)) : Yields env b (m >>= f) := fun w => by
  rw [wp_bind]
  exact wp_mono (wp_trivial m w) (fun a w' _ => h a w') fun _ _ _ => trivial

theorem afterRecord_options {env : Environment} (config : Config) (stored : Stored) {hook : Hook}
    (hhook : hook ≠ .configChanged) :
    Yields env stored.options (afterRecord lib setResults config stored hook) := by
  cases hook with
  | configChanged => exact absurd rfl hhook
  | install | updateStatus | upgradeCharm _ | getNodeHelp | getNodeInfo | printEventLog | printReadme
  | unobserved => exact .bind fun _ => .pure _
  | start | stop | restartNode | startNode | stopNode =>
    exact .bind fun _ => .bind fun _ => .bind fun _ => .bind fun _ => by
      first | exact .pure _ | exact .bind fun _ => .pure _

theorem options_recordEvent (clock name : Str) (stored : Stored) :
    (recordEvent clock name stored).options = stored.options := by
  simp only [recordEvent]

/-- Only `config-changed` moves them. -/
theorem dispatch_options (hhook : d.hook ≠ .configChanged) {stored : Stored}
    (hstored : c.stored = some stored) :
    (dispatch lib setResults redaction c d).stored.map Stored.options = some stored.options := by
  have hdefault : setDefault c.stored d.config = stored := by
    rw [hstored]
    rfl
  unfold dispatch
  cases hending : ending lib setResults redaction c d with
  | error e w =>
    simp only [hstored, Option.map_some]
  | ok stored' w =>
    simp only [Option.map_some, Option.some.injEq]
    rw [ending, hdefault] at hending
    unfold handle at hending
    cases hname : eventName redaction stored.options d.config d.hook with
    | error e =>
      rw [hname] at hending
      cases hending
    | ok name =>
      rw [hname] at hending
      have hsame : (name.elim stored fun name => recordEvent d.clock name stored).options = stored.options := by
        cases name with
        | none => rfl
        | some name => exact options_recordEvent _ _ _
      have hkept : Yields d.environment stored.options (afterRecord lib setResults d.config
          (name.elim stored fun name => recordEvent d.clock name stored) d.hook) := by
        rw [← hsame]
        exact afterRecord_options _ _ hhook
      have hwp : wp d.environment (do
          let options ← afterRecord lib setResults d.config
            (name.elim stored fun name => recordEvent d.clock name stored) d.hook
          pure { (name.elim stored fun name => recordEvent d.clock name stored) with options })
          (fun r _ => r.options = stored.options) (fun _ _ => True) (hookStart c.host) := by
        rw [wp_bind]
        exact wp_mono (hkept _) (fun _ _ h => h) fun _ _ _ => trivial
      exact wp_of_ok hwp hending

/-- A handler that lays down no files changes none. -/
theorem files_dispatch (hhook : Hook.writes d.hook = false) :
    (dispatch lib setResults redaction c d).host.files = c.host.files := by
  funext p
  exact dispatch_files (S := fun _ => False) (fun stored => operates_stays
    (respects_sameOutside fun _ => False) (fun _ => trivial) lib d.config stored hhook) id

/-- The commands that set up the machine leave this file alone. -/
def Spares (env : Environment) (p : Path) : Prop :=
  ∀ hist op files posix, p = .other posix → (env hist op).others files posix = files posix

theorem setUp_spares {env : Environment} {p : Path} (h : Spares env p) (op : Op) :
    Stays env (SameOutside fun q => Touchable q ∨ q ≠ p) (setUp op) := by
  have hothers : ∀ (hist : List Op) (host : Host) (q : Path), ¬ (Touchable q ∨ q ≠ p) →
      (host.setOthers (env hist op).others).files q = host.files q := by
    intro hist host q hq
    have hqp : q = p := not_not.1 fun hne => hq (.inr hne)
    cases q with
    | other posix => exact h hist op _ posix hqp.symm
    | _ => rfl
  intro w
  simp only [setUp, wp_bind]
  exact HostSteps.wp_external (fun _ _ q hq => ⟨hothers _ _ q hq, rfl⟩) fun _ q hq => ⟨hothers _ _ q hq, rfl⟩

theorem unmanaged_dispatch {p : Path} (hp : ¬ Touchable p)
    (hinstall : d.hook = .install → Spares d.environment p) :
    (dispatch lib setResults redaction c d).host.files p = c.host.files p := by
  have hmanages : Permit.Manages ⟨fun q => Touchable q ∨ q ≠ p, fun _ => True, fun _ => True⟩ :=
    ⟨fun _ => .inl, fun _ => trivial, fun _ => trivial⟩
  refine dispatch_files (S := fun q => Touchable q ∨ q ≠ p) (fun stored => ?_) fun h => h.elim hp fun h => h rfl
  exact afterRecord_stays (respects_sameOutside _) hmanages lib d.config stored fun hhook op _ =>
    setUp_spares (hinstall hhook) op

theorem options_run (hds : ∀ d ∈ ds, d.hook ≠ .configChanged) {stored : Stored}
    (hstored : c.stored = some stored) :
    (run lib setResults redaction c ds).stored.map Stored.options = some stored.options := by
  induction ds generalizing c stored with
  | nil =>
    rw [run, List.foldl_nil, hstored]
    rfl
  | cons d ds ih =>
    have hone := @dispatch_options lib redaction c d (hds d List.mem_cons_self) stored hstored
    obtain ⟨stored', hstored', hsame⟩ := Option.map_eq_some_iff.1 hone
    rw [run_cons, ih (fun d hd => hds d (List.mem_cons_of_mem _ hd)) hstored', hsame]

end

/-- Nothing but questions was asked, and files and processes are as they were. -/
structure Observed (w w' : World) : Prop where
  asked : Asks (isObservation · = true) w w'
  files : w'.host.files = w.host.files
  process : w'.host.process = w.host.process

instance : Std.Refl Observed := ⟨fun w => ⟨refl_of _ w, rfl, rfl⟩⟩

instance : IsTrans World Observed :=
  ⟨fun _ _ _ h h' => ⟨trans_of _ h.asked h'.asked, h'.files.trans h.files, h'.process.trans h.process⟩⟩

section
variable {env : Environment}

theorem external_observed {op : Op} (hop : isObservation op = true)
    {failed done : Answer → ℕ → Host → Host}
    (hfailed : ∀ a t h, (failed a t h).files = h.files ∧ (failed a t h).process = h.process)
    (hdone : ∀ a t h, (done a t h).files = h.files ∧ (done a t h).process = h.process) :
    Stays env Observed (external op failed done) := fun _ =>
  HostSteps.wp_external (fun _ _ => ⟨.of_history_cons hop rfl, (hfailed _ _ _).1, (hfailed _ _ _).2⟩)
    fun _ => ⟨.of_history_cons hop rfl, (hdone _ _ _).1, (hdone _ _ _).2⟩

theorem observe_observed {op : Op} (hop : isObservation op = true) : Stays env Observed (observe op) :=
  external_observed hop (fun _ _ _ => ⟨rfl, rfl⟩) fun _ _ _ => ⟨rfl, rfl⟩

theorem getStatus_observed (s : Service) : Stays env Observed (getStatus s) := by
  unfold getStatus
  refine Stays.bind ?_ fun _ => Stays.readHost.bind fun _ => .pure _
  exact external_observed rfl (fun _ _ _ => ⟨rfl, rfl⟩) fun _ _ _ => ⟨rfl, rfl⟩

theorem pollVersion_observed (user password : Str) (n : ℕ) :
    Stays env Observed (pollVersion user password n) := by
  induction n with
  | zero => exact .pure _
  | succ n ih =>
    refine (observe_observed rfl).bind fun a => ?_
    cases a.reply with
    | unavailable => exact ih
    | subversion s =>
      simp only
      cases Backtracking.search subversionPattern s with
      | none => exact ih
      | some m =>
        refine Stays.now.bind fun t => Stays.bind (.modifyHost fun w => ?_) fun _ => .pure _
        exact ⟨.of_history_eq rfl, rfl, rfl⟩

theorem asking_observed : Asking env Observed where
  observe := fun _ hop _ => observe_observed hop
  status := getStatus_observed
  version := fun _ => pollVersion_observed _ _ _

theorem afterRecord_observed (lib : Library) (config : Config) (stored : Stored) {hook : Hook}
    (hhook : Hook.commands hook = false) :
    Stays env Observed (afterRecord lib setResults config stored hook) := by
  cases hook with
  | install | configChanged | start | stop | restartNode | startNode | stopNode => cases hhook
  | updateStatus | upgradeCharm _ => exact (updateStatus_asks asking_observed config).bind fun _ => .pure _
  | getNodeHelp | getNodeInfo | printEventLog | printReadme | unobserved =>
    exact (setResults_asks asking_observed _ config stored).bind fun _ => .pure _

end

/-- What the dispatches of a run ask of their hosts, each latest first. -/
def operations (lib : Library) (redaction : Redaction.Library) (c : Deployment) : List Dispatch → List Op
  | [] => []
  | d :: ds => (endWorld (ending lib setResults redaction c d)).history ++
      operations lib redaction (dispatch lib setResults redaction c d) ds

/-- A unit with all its files and with its services running. -/
def operating : Host where
  files p := if p ∈ Path.transactionPaths then some ⟨[], 0o755⟩ else none
  running _ := true

/-- A status update, a look at the node and an upgrade. -/
def inspected : List Dispatch :=
  [.updateStatus, .getNodeInfo, .upgradeCharm "v0.2.0".toList].map fun hook => { installed with hook }

end BitcoinRpcOperator.CharmFootprint
