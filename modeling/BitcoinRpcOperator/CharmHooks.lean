import BitcoinRpcOperator.GenerationFiles
import BitcoinRpcOperator.TransactionAtomicity

/-!
# Hooks of the charm

`_on_install` and `_on_config_changed` of `charm.py`, and runs of hooks. Each hook is a
process of its own: it reads the stored options, acts on the host, and its stored
options are kept only when the handler returns. What it did to the host stays either way.
-/

namespace BitcoinRpcOperator.CharmHooks
open Text ServiceConfiguration FallibleProcedures HostSystem ReleaseInstaller ConfigTransaction
open HostSteps HostFrames ReleaseAtomicity TransactionAtomicity GenerationFiles

variable {env : Environment} {w : World}

inductive UnitStatus where
  | blocked (message : Str)
  | waiting (message : Str)
  | active (message : Str)
  deriving DecidableEq, Repr

def setStatus (status : UnitStatus) : Proc UnitStatus := do
  let _ ← observe .setStatus
  pure status

def upOrDown (running : Bool) : Str := if running then "up".toList else "down".toList

def statusMessage (node monitor proxy : Bool) : Str :=
  ", ".toList.intercalate ["Node: ".toList ++ upOrDown node, "monitor: ".toList ++ upOrDown monitor,
    "proxy: ".toList ++ upOrDown proxy]

/-- With every service up: wait for the node and hand over the metadata. -/
def readyStatus (config : Config) (message : Str) : Proc UnitStatus := do
  let version ← waitForRunningVersion config
  match version with
  | none => setStatus (.blocked "Bitcoin Core RPC did not become ready".toList)
  | some _ => do
    let collected ← observe .collectMetadata
    match collected.metadataError with
    | some error => setStatus (.blocked error)
    | none => setStatus (.active message)

def serviceStatus (config : Config) : Proc UnitStatus := do
  let node ← serviceRunning .node 4
  let monitor ← serviceRunning .monitor 4
  let proxy ← serviceRunning .rpcProxy 4
  if node && monitor && proxy then readyStatus config (statusMessage node monitor proxy)
  else setStatus (.waiting (statusMessage node monitor proxy))

def updateStatus (config : Config) : Proc UnitStatus := do
  let _ ← observe .workloadVersion
  let node ← fileExists .binary
  match node with
  | false => setStatus (.blocked "bitcoind not installed; set version".toList)
  | true => do
    let proxy ← fileExists .rpcProxyBinary
    match proxy with
    | false =>
      setStatus (.blocked "rpc-proxy binary not installed; set rpc-proxy-version".toList)
    | true => serviceStatus config

/-- `create_user`: `addgroup`, `adduser` and the mode of the home directory. -/
def createUser : Proc Unit := do
  setUp .account
  setUp .account
  setUp .account
  chown

def pipPackages : List Str :=
  ["prometheus_client==0.25.0", "python-bitcoinlib==0.12.2", "riprova==0.3.1", "six==1.17.0"].map
    String.toList

def pipInstall : List Str → Proc Unit
  | [] => pure ()
  | _ :: packages => do
    setUp .packages
    pipInstall packages

/-- `install_dependencies`: both calls of `apt`, the virtual environment, what `pip` puts there, and
the imports that check it. -/
def installDependencies : Proc Unit := do
  setUp .packages
  setUp .packages
  mkdirParents .monitorScript
  setUp .packages
  pipInstall pipPackages
  setUp .packages
  chown

/-- `_install_bitcoind`, without a restart. -/
def installNode (lib : Library) (config : Config) : Proc Unit := do
  installBitcoin lib (config .version).orEmpty config (config .binaryUrl).orEmpty
  let _ ← installServiceFile lib .node
  let _ ← updateServiceArgs config false

/-- `_install_bitcoind_monitor`, without a restart. -/
def installMonitor (lib : Library) (config : Config) : Proc Unit := do
  let _ ← installServiceFile lib .monitor
  installBitcoindMonitor lib config false

/-- `_install_rpc_proxy`, without a restart. -/
def installProxy (lib : Library) (config : Config) : Proc Unit := do
  installRpcProxy lib (config .rpcProxyVersion).orEmpty
  installRpcProxyService lib config false

def onInstall (lib : Library) (config : Config) : Proc Unit := do
  createUser
  installDependencies
  installNode lib config
  installMonitor lib config
  installProxy lib config
  chown

/-- `previous_config`: the stored values of the tracked options. -/
def previousConfig (stored config : Config) : Config := fun k =>
  if k ∈ trackedConfig then stored k else config k

/-- The stored options after a transaction over `changed`. -/
def updateStored (stored config : Config) (changed : Finset Key) : Config := fun k =>
  if k ∈ trackedConfig ∧ k ∈ changed then config k else stored k

/-- `_on_config_changed`, from the stored options to the new ones. -/
def onConfigChanged (lib : Library) (stored config : Config) : Proc Config := do
  applyConfigTransaction lib config (previousConfig stored config) (changedKeys stored config)
  let _ ← updateStatus config
  pure (updateStored stored config (changedKeys stored config))

/-- What outlives a hook: the persisted options, and the host. -/
structure Charm where
  stored : Config
  host : Host

/-- A hook starts with nothing asked and nothing attempted. -/
def hookStart (h : Host) : World := ⟨[], { h with attempts := [] }⟩

/-- How a `config-changed` hook ends. -/
inductive Ending where
  | completed | rolledBack | abortedLate
  deriving DecidableEq, Repr

/-- One `config-changed` hook under `config`: it completes, or it raises in a transaction
that was rolled back without a failure, or it raises after the transaction was applied. -/
inductive ConfigChanged (lib : Library) (config : Config) (c : Charm) : Ending → Charm → Prop
  | completed {env : Environment} {stored : Config} {w : World}
      (run : onConfigChanged lib c.stored config env (hookStart c.host) = .ok stored w) :
      ConfigChanged lib config c .completed ⟨stored, w.host⟩
  | rolledBack {env : Environment} {e : Exc} {w : World}
      (transaction : applyConfigTransaction lib config (previousConfig c.stored config)
        (changedKeys c.stored config) env (hookStart c.host) = .error e w)
      (clean : failures w = []) : ConfigChanged lib config c .rolledBack ⟨c.stored, w.host⟩
  | abortedLate {env : Environment} {e : Exc} {w₁ w : World}
      (transaction : applyConfigTransaction lib config (previousConfig c.stored config)
        (changedKeys c.stored config) env (hookStart c.host) = .ok () w₁)
      (run : onConfigChanged lib c.stored config env (hookStart c.host) = .error e w) :
      ConfigChanged lib config c .abortedLate ⟨c.stored, w.host⟩

/-- A hook that raised after rewriting the file of `s` is remembered by its options until
a hook completes. -/
def afterLateAbort (stored config : Config) (late : Service → Option Config) :
    Service → Option Config := fun s =>
  if Affected.rewrites (affected (changedKeys stored config)) s then some config else late s

/-- Hooks after an install, with the last late abort that rewrote each environment file
since a hook completed. Every completing hook meets `meets`. -/
inductive Run (lib : Library) (meets : Config → Config → (Service → Option Config) → Prop) :
    Charm → (Service → Option Config) → Prop
  | installed {env : Environment} {config : Config} {h : Host} {w : World}
      (run : onInstall lib config env (hookStart h) = .ok () w) :
      Run lib meets ⟨config, w.host⟩ fun _ => none
  | completed {c c' : Charm} {late : Service → Option Config} {config : Config}
      (before : Run lib meets c late) (hook : ConfigChanged lib config c .completed c')
      (met : meets c.stored config late) : Run lib meets c' fun _ => none
  | rolledBack {c c' : Charm} {late : Service → Option Config} {config : Config}
      (before : Run lib meets c late) (hook : ConfigChanged lib config c .rolledBack c') :
      Run lib meets c' late
  | abortedLate {c c' : Charm} {late : Service → Option Config} {config : Config}
      (before : Run lib meets c late) (hook : ConfigChanged lib config c .abortedLate c') :
      Run lib meets c' (afterLateAbort c.stored config late)

def EnvFilesOf (config : Config) (h : Host) : Prop :=
  ∀ s, (h.files (.env s)).map (·.data) = some (utf8 (renderEnv config s))

theorem env_not_swappable (s : Service) : ¬ Swappable (.env s) := by
  rintro (h | ⟨t, h⟩)
  · simp [Path.isScratch] at h
  · cases t <;> simp [Tool.destination] at h

theorem setStatus_stays (status : UnitStatus) :
    Stays env (SameOutside fun _ => False) (setStatus status) :=
  ((respects_sameOutside _).observe (.inl rfl)).bind fun _ => .pure _

theorem readyStatus_stays (config : Config) (message : Str) :
    Stays env (SameOutside fun _ => False) (readyStatus config message) := by
  refine ((respects_sameOutside _).waitForRunningVersion config).bind fun version => ?_
  cases version with
  | none => exact setStatus_stays _
  | some _ =>
    refine ((respects_sameOutside _).observe (.inl rfl)).bind fun collected => ?_
    cases collected.metadataError with
    | none => exact setStatus_stays _
    | some _ => exact setStatus_stays _

theorem updateStatus_stays (config : Config) :
    Stays env (SameOutside fun _ => False) (updateStatus config) := by
  have hR := respects_sameOutside fun _ => False
  refine (hR.observe (.inl rfl)).bind fun _ => (Respects.fileExists _).bind fun node => ?_
  cases node with
  | false => exact setStatus_stays _
  | true =>
    refine (Respects.fileExists _).bind fun proxy => ?_
    cases proxy with
    | false => exact setStatus_stays _
    | true =>
      exact (hR.serviceRunning trivial 4).bind fun _ => (hR.serviceRunning trivial 4).bind fun _ =>
        (hR.serviceRunning trivial 4).bind fun _ => .ite (readyStatus_stays _ _) (setStatus_stays _)

theorem installNode_writes (lib : Library) (config : Config) :
    WritesEnv env config .node (installNode lib config) := by
  have release : Stays env (SameOutside Swappable)
      (installBitcoin lib (config .version).orEmpty config (config .binaryUrl).orEmpty) :=
    (respects_sameOutside _).installBitcoin
      ⟨fun _ => .inl rfl, fun t => .inr ⟨t, rfl⟩, trivial, fun _ _ => trivial⟩ lib _ config _
  have service : Stays env (SameOutside fun p => p = .unit .node) (installServiceFile lib .node) :=
    (respects_sameOutside fun p => p = .unit .node).installServiceFile rfl lib
  exact .after (fun _ => .after (fun _ => updateServiceArgs_writes config) (by simp) service)
    (env_not_swappable _) release

theorem installMonitor_writes (lib : Library) (config : Config) :
    WritesEnv env config .monitor (installMonitor lib config) := by
  have service : Stays env (SameOutside fun p => p = .unit .monitor)
      (installServiceFile lib .monitor) :=
    (respects_sameOutside fun p => p = .unit .monitor).installServiceFile rfl lib
  exact .after (fun _ => installBitcoindMonitor_writes lib config) (by simp) service

theorem installMonitor_stays (lib : Library) (config : Config) :
    Stays env (SameOutside fun p => p ∈ [.unit .monitor, .monitorScript, .env .monitor])
      (installMonitor lib config) := by
  have hR := respects_sameOutside fun p => p ∈ [.unit .monitor, .monitorScript, .env .monitor]
  exact (hR.installServiceFile (by simp) lib).bind fun _ =>
    hR.installBitcoindMonitor (by simp) (by simp) lib config

theorem installProxy_writes (lib : Library) (config : Config) :
    WritesEnv env config .rpcProxy (installProxy lib config) := by
  have binary : Stays env (SameOutside fun p => p ∈ [.rpcProxyBinary, .temporary .rpcProxyBinary])
      (installRpcProxy lib (config .rpcProxyVersion).orEmpty) :=
    (respects_sameOutside _).installRpcProxy (by simp) (by simp) lib _
  exact .after (fun _ => installRpcProxyService_writes lib config) (by simp) binary

theorem installProxy_stays (lib : Library) (config : Config) :
    Stays env (SameOutside fun p => p ∈ [.rpcProxyBinary, .temporary .rpcProxyBinary,
      .unit .rpcProxy, .env .rpcProxy]) (installProxy lib config) := by
  have hR := respects_sameOutside fun p => p ∈ [.rpcProxyBinary, .temporary .rpcProxyBinary,
    .unit .rpcProxy, .env .rpcProxy]
  exact (hR.installRpcProxy (by simp) (by simp) lib _).bind fun _ =>
    hR.installRpcProxyService (by simp) (by simp) lib config

theorem onInstall_spec (lib : Library) (config : Config) (w : World) :
    wp env (onInstall lib config) (fun _ w' => EnvFilesOf config w'.host) (fun _ _ => True) w := by
  have chownStays : Stays env (SameOutside fun _ => False) chown := (respects_sameOutside _).chown
  simp only [onInstall, wp_bind]
  refine wp_mono (wp_trivial _ w) (fun _ w₁ _ => ?_) fun _ _ _ => trivial
  refine wp_mono (wp_trivial _ w₁) (fun _ w₂ _ => ?_) fun _ _ _ => trivial
  refine wp_mono (installNode_writes lib config w₂) (fun _ w₃ hnode => ?_) fun _ _ _ => trivial
  refine wp_mono (wp_and (installMonitor_writes lib config w₃) (installMonitor_stays lib config w₃))
    (fun _ w₄ hmonitor => ?_) fun _ _ _ => trivial
  refine wp_mono (wp_and (installProxy_writes lib config w₄) (installProxy_stays lib config w₄))
    (fun _ w₅ hproxy => ?_) fun _ _ _ => trivial
  refine wp_mono (chownStays w₅) (fun _ w₆ hlast => ?_) fun _ _ _ => trivial
  intro s
  rw [(hlast _ id).1]
  cases s with
  | node =>
    rw [(hproxy.2 _ (by simp)).1, (hmonitor.2 _ (by simp)).1, hnode]
    rfl
  | monitor =>
    rw [(hproxy.2 _ (by simp)).1, hmonitor.1]
    rfl
  | rpcProxy =>
    rw [hproxy.1]
    rfl

/-- A transaction from the stored options rewrites what the changed options affect. -/
theorem transaction_envs {lib : Library} {config previous : Config} {changed : Finset Key}
    {w w' : World}
    (h : applyConfigTransaction lib config previous changed env w = .ok () w') (s : Service) :
    (w'.host.files (.env s)).map (·.data) =
      if Affected.rewrites (affected changed) s then some (utf8 (renderEnv config s))
      else (w.host.files (.env s)).map (·.data) := by
  rw [(wp_of_ok (applyConfigTransaction_files lib config previous changed w) h).envs, envAfter]
  split <;> rfl

/-- The rest of a hook after its transaction leaves the files alone. -/
theorem statusAndStore_stays (config stored : Config) :
    Stays env (SameOutside fun _ => False) (do let _ ← updateStatus config; pure stored) :=
  (updateStatus_stays config).bind fun _ => .pure _

theorem completed_envs {lib : Library} {config : Config} {c c' : Charm}
    (h : ConfigChanged lib config c .completed c') :
    c'.stored = updateStored c.stored config (changedKeys c.stored config) ∧
      ∀ s, (c'.host.files (.env s)).map (·.data) =
        if Affected.rewrites (affected (changedKeys c.stored config)) s then
          some (utf8 (renderEnv config s))
        else (c.host.files (.env s)).map (·.data) := by
  obtain ⟨run⟩ := h
  rename_i env stored w
  have spec : wp env (onConfigChanged lib c.stored config)
      (fun r w' => r = updateStored c.stored config (changedKeys c.stored config) ∧ ∃ w₁,
        applyConfigTransaction lib config (previousConfig c.stored config)
          (changedKeys c.stored config) env (hookStart c.host) = .ok () w₁ ∧
        SameOutside (fun _ => False) w₁ w') (fun _ _ => True) (hookStart c.host) := by
    simp only [onConfigChanged, wp_bind]
    refine wp_mono (wp_run _ _) (fun _ w₁ h₁ => ?_) fun _ _ _ => trivial
    refine wp_mono (updateStatus_stays config w₁) (fun _ w' h' => ?_) fun _ _ _ => trivial
    exact ⟨rfl, w₁, h₁, h'⟩
  obtain ⟨hstored, w₁, htransaction, hsame⟩ := wp_of_ok spec run
  refine ⟨hstored, fun s => ?_⟩
  rw [(hsame _ id).1, transaction_envs htransaction s]
  rfl

theorem rolledBack_envs {lib : Library} {config : Config} {c c' : Charm}
    (h : ConfigChanged lib config c .rolledBack c') :
    c'.stored = c.stored ∧ ∀ s, c'.host.files (.env s) = c.host.files (.env s) := by
  obtain _ | ⟨transaction, clean⟩ := h
  rename_i env e w
  refine ⟨rfl, fun s => ?_⟩
  have hundone := (wp_of_error (applyConfigTransaction_raises lib config _ _ rfl) transaction).1
  refine (hundone.files (.env s) (by cases s <;> decide) fun m hm => ?_).trans rfl
  have hfailed : failureText (.restore (.env s)) m ∈ failures w :=
    List.mem_filterMap.2 ⟨_, List.mem_filter.2 ⟨List.mem_reverse.2 hm, rfl⟩, rfl⟩
  rw [clean] at hfailed
  cases hfailed

theorem abortedLate_envs {lib : Library} {config : Config} {c c' : Charm}
    (h : ConfigChanged lib config c .abortedLate c') :
    c'.stored = c.stored ∧ ∀ s, (c'.host.files (.env s)).map (·.data) =
      if Affected.rewrites (affected (changedKeys c.stored config)) s then
        some (utf8 (renderEnv config s))
      else (c.host.files (.env s)).map (·.data) := by
  obtain _ | _ | ⟨transaction, run⟩ := h
  rename_i env e w₁ w
  refine ⟨rfl, fun s => ?_⟩
  rw [onConfigChanged, bind_run_ok transaction] at run
  have hsame := wp_of_error (statusAndStore_stays config _ w₁) run
  rw [(hsame _ id).1, transaction_envs transaction s]
  rfl

/-- The file of `s` comes from the last late abort that rewrote it, else from the stored
options. -/
def Rendered (c : Charm) (late : Service → Option Config) : Prop :=
  ∀ s, (c.host.files (.env s)).map (·.data) = some (utf8 (renderEnv ((late s).getD c.stored) s))

/-- Files that a hook under `config` does not rewrite were last rewritten by a hook whose
options render as the stored ones do. -/
def CatchesUp (stored config : Config) (late : Service → Option Config) : Prop :=
  ∀ s, Affected.rewrites (affected (changedKeys stored config)) s = false →
    ∀ c, late s = some c → renderEnv c s = renderEnv stored s

theorem stored_agrees (stored config : Config) {k : Key} (hk : k ∈ trackedConfig) :
    updateStored stored config (changedKeys stored config) k = config k := by
  rw [updateStored]
  split
  · rfl
  · rename_i hnot
    by_contra hne
    exact hnot ⟨hk, mem_changedKeys hk hne⟩

theorem renderEnv_updateStored (stored config : Config) (s : Service) :
    renderEnv (updateStored stored config (changedKeys stored config)) s = renderEnv config s := by
  refine renderEnv_congr s fun k hk => stored_agrees stored config ?_
  revert hk
  cases s <;> cases k <;> decide

theorem renderEnv_stored {stored config : Config} {s : Service}
    (h : Affected.rewrites (affected (changedKeys stored config)) s = false) :
    renderEnv stored s = renderEnv config s :=
  renderEnv_congr s (inputs_eq_of_not_rewritten h)

/-- A completing hook leaves its own renderings exactly when it catches up. -/
theorem completed_iff {lib : Library} {config : Config} {c c' : Charm}
    {late : Service → Option Config} (hr : Rendered c late)
    (h : ConfigChanged lib config c .completed c') :
    EnvFilesOf config c'.host ↔ CatchesUp c.stored config late := by
  obtain ⟨-, henvs⟩ := completed_envs h
  constructor
  · intro hfiles s hnot late' hlate
    have heq := (henvs s).symm.trans (hfiles s)
    rw [if_neg (by simp [hnot]), hr s, hlate, Option.getD_some] at heq
    rw [utf8_injective (Option.some.inj heq), renderEnv_stored hnot]
  · intro hcatch s
    rw [henvs s]
    split
    · rfl
    · rename_i hnot
      have hnot : Affected.rewrites (affected (changedKeys c.stored config)) s = false := by
        simpa using hnot
      rw [hr s, ← renderEnv_stored hnot]
      cases hlate : late s with
      | none => rfl
      | some late' => rw [Option.getD_some, hcatch s hnot late' hlate]

theorem run_rendered {lib : Library} {c : Charm} {late : Service → Option Config}
    (h : Run lib CatchesUp c late) : Rendered c late := by
  induction h with
  | installed run => exact fun s => wp_of_ok (onInstall_spec lib _ _) run s
  | completed _ hook met ih =>
    intro s
    rw [(completed_iff ih hook).2 met s, Option.getD_none, (completed_envs hook).1,
      renderEnv_updateStored]
  | rolledBack _ hook ih =>
    obtain ⟨hstored, hfiles⟩ := rolledBack_envs hook
    intro s
    rw [hfiles s, hstored, ih s]
  | abortedLate _ hook ih =>
    obtain ⟨hstored, henvs⟩ := abortedLate_envs hook
    intro s
    rw [henvs s, hstored, afterLateAbort]
    split
    · rfl
    · exact ih s

/-- In every run whose completing hooks all catch up, a hook that completes leaves the
three environment files of its own options, exactly when it catches up too. -/
theorem run_completed_iff {lib : Library} {config : Config} {c c' : Charm}
    {late : Service → Option Config} (hrun : Run lib CatchesUp c late)
    (hook : ConfigChanged lib config c .completed c') :
    EnvFilesOf config c'.host ↔ CatchesUp c.stored config late :=
  completed_iff (run_rendered hrun) hook

def endWorld {α : Type} : EStateM.Result Exc World α → World
  | .ok _ w => w
  | .error _ w => w

theorem eq_ok_of_returnsNormally {r : EStateM.Result Exc World Unit}
    (h : returnsNormally r = true) : r = .ok () (endWorld r) := by
  obtain ⟨⟨⟩, w, rfl⟩ := exists_of_returnsNormally h
  rfl

theorem eq_error_of_not_returnsNormally {α : Type} {r : EStateM.Result Exc World α}
    (h : returnsNormally r = false) : ∃ e, r = .error e (endWorld r) := by
  cases r with
  | ok _ _ => cases h
  | error e w => exact ⟨e, rfl⟩

/-- Reporting the workload version to Juju fails. -/
def jujuDown : Environment := fun _ op =>
  match op with
  | .workloadVersion => { raises := some "cannot reach the controller".toList }
  | _ => {}

/-- Right after an install without options. -/
def freshCharm : Charm :=
  ⟨noOptions, (endWorld (onInstall emptyMirror noOptions calm (hookStart freshWorld.host))).host⟩

/-- A user name is set, and the hook fails once it is applied. -/
def strandedCharm : Charm :=
  ⟨freshCharm.stored, (endWorld (onConfigChanged emptyMirror freshCharm.stored onlyUser jujuDown
    (hookStart freshCharm.host))).host⟩

theorem freshCharm_run (meets : Config → Config → (Service → Option Config) → Prop) :
    Run emptyMirror meets freshCharm fun _ => none :=
  .installed (eq_ok_of_returnsNormally (by decide +kernel))

theorem strandedCharm_run (meets : Config → Config → (Service → Option Config) → Prop) :
    Run emptyMirror meets strandedCharm (afterLateAbort freshCharm.stored onlyUser fun _ => none) := by
  have htransaction : applyConfigTransaction emptyMirror onlyUser
      (previousConfig freshCharm.stored onlyUser) (changedKeys freshCharm.stored onlyUser) jujuDown
      (hookStart freshCharm.host) = .ok () (endWorld _) :=
    eq_ok_of_returnsNormally (by decide +kernel)
  obtain ⟨e, hrun⟩ := eq_error_of_not_returnsNormally (r := onConfigChanged emptyMirror
    freshCharm.stored onlyUser jujuDown (hookStart freshCharm.host)) (by decide +kernel)
  have hook : ConfigChanged emptyMirror onlyUser freshCharm .abortedLate strandedCharm :=
    .abortedLate htransaction hrun
  exact .abortedLate (freshCharm_run meets) hook

/-- After the revert to the stored options nothing differs, and the files keep the user. -/
theorem run_loses_revert : ¬ ∀ (lib : Library) (c c' : Charm) (late : Service → Option Config)
    (config : Config), Run lib (fun _ _ _ => True) c late →
    ConfigChanged lib config c .completed c' → EnvFilesOf config c'.host := by
  intro h
  have hrun : returnsNormally (onConfigChanged emptyMirror strandedCharm.stored noOptions calm
    (hookStart strandedCharm.host)) = true := by decide +kernel
  obtain ⟨stored, w, hrun⟩ := exists_of_returnsNormally hrun
  have hfiles := h _ _ _ _ _ (strandedCharm_run _) (.completed hrun)
  have hcatch := (run_completed_iff (strandedCharm_run _) (.completed hrun)).1 hfiles
  exact absurd (hcatch .monitor (by decide) onlyUser (if_pos (by decide))) (by decide +kernel)

/-- A user name set in a hook that completes. -/
theorem run_completed_onlyUser : ∃ c', ConfigChanged emptyMirror onlyUser freshCharm .completed c' ∧
    EnvFilesOf onlyUser c'.host := by
  have hrun : returnsNormally (onConfigChanged emptyMirror freshCharm.stored onlyUser calm
    (hookStart freshCharm.host)) = true := by decide +kernel
  obtain ⟨stored, w, hrun⟩ := exists_of_returnsNormally hrun
  refine ⟨_, .completed hrun, (run_completed_iff (freshCharm_run _) (.completed hrun)).2 ?_⟩
  intro s _ c hlate
  cases hlate

end BitcoinRpcOperator.CharmHooks
