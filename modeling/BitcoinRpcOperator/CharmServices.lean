import BitcoinRpcOperator.CharmFootprint
import BitcoinRpcOperator.ProcessGenerations
import BitcoinRpcOperator.ServicePreservation

/-!
# What the services are asked to do, and what runs

On machines whose units move only when the charm acts on them, the hooks and actions are
a small machine over three switches. Configuration changes, whether they succeed or are
rolled back, are not among its moves.
-/

namespace BitcoinRpcOperator.CharmServices
open Text ServiceConfiguration FallibleProcedures HostSystem ReleaseInstaller ConfigTransaction
open HostSteps HostFrames ReleaseAtomicity TransactionAtomicity GenerationFiles CharmHooks EventLog
open CharmFootprint ServicePreservation

inductive Command where
  | up | down | restart
  | keep
  deriving DecidableEq, Repr

abbrev Units := Service → Bool

/-- The services after a command, with the binary of the proxy installed or not. -/
def meant (command : Command) (installed : Bool) (r : Units) : Units :=
  match command with
  | .up => fun s => match s with
    | .rpcProxy => r .rpcProxy || installed
    | .node | .monitor => true
  | .down => fun _ => false
  | .restart => fun s => match s with
    | .node => true
    | .monitor => r .monitor
    | .rpcProxy => r .rpcProxy || installed
  | .keep => r

def follow (r : Units) (orders : List (Command × Bool)) : Units :=
  orders.foldl (fun r order => meant order.1 order.2 r) r

/-- The proxy does not run in front of a node that is down. -/
def Fronted (r : Units) : Prop := r .rpcProxy = true → r .node = true

theorem meant_fronted (command : Command) (installed : Bool) {r : Units} (h : Fronted r) :
    Fronted (meant command installed r) := by
  cases command with
  | up | restart => exact fun _ => rfl
  | down => exact fun h => h
  | keep => exact h

/-- What was last asked of the node, if anything. -/
def lastAsked (commands : List Command) : Option Command := (commands.filter (· ≠ .keep)).getLast?

theorem meant_node {command : Command} (h : command ≠ .keep) (installed : Bool) (r : Units) :
    meant command installed r .node = decide (command ≠ .down) := by
  cases command with
  | up | down | restart => rfl
  | keep => exact absurd rfl h

/-- The node runs when that was last asked for. -/
theorem follow_node (r : Units) (orders : List (Command × Bool)) : follow r orders .node =
    ((lastAsked (orders.map Prod.fst)).map fun k => decide (k ≠ .down)).getD (r .node) := by
  induction orders using List.reverseRecOn with
  | nil => rfl
  | append_singleton orders order ih =>
    rw [follow, List.foldl_append, List.foldl_cons, List.foldl_nil]
    by_cases hkeep : order.1 = .keep
    · rw [hkeep, lastAsked, List.map_append, List.filter_append, List.map_singleton, hkeep]
      simp only [ne_eq, not_true_eq_false, decide_false, Bool.false_eq_true, not_false_eq_true,
        List.filter_cons_of_neg, List.filter_nil, List.append_nil]
      exact ih
    · rw [meant_node hkeep, lastAsked, List.map_append, List.filter_append, List.map_singleton]
      simp [hkeep]

def Hook.command : Hook → Command
  | .start | .startNode => .up
  | .stop | .stopNode => .down
  | .restartNode => .restart
  | .install | .updateStatus | .configChanged | .upgradeCharm _ | .getNodeHelp | .getNodeInfo
  | .printEventLog | .printReadme | .unobserved => .keep

def SameUnits (w w' : World) : Prop := w'.host.running = w.host.running

instance : Std.Refl SameUnits := ⟨fun _ => rfl⟩

instance : IsTrans World SameUnits := ⟨fun _ _ _ h h' => h'.trans h⟩

section
variable {env : Environment} {w : World}

theorem Stays.sameUnits {α : Type} {m : Proc α} (h : Stays env Undisturbed m) : Stays env SameUnits m :=
  h.mono fun _ _ h => h.running

theorem asking_steady (hs : Steady env) : Asking env SameUnits where
  observe := fun _ _ hquiet => Stays.sameUnits (respects_undisturbed.observe (.inl hquiet))
  status := fun _ _ => wp_getStatus_steady hs (fun _ _ => rfl) rfl
  version := fun config => Stays.sameUnits (respects_undisturbed.waitForRunningVersion config)

/-- A command, and what follows it. -/
theorem wp_command {α : Type} {v : Verb} {s : Service} {m : Proc α} {Q : α → World → Prop}
    (h : ∀ w', w'.host.running = commandedUnits w.host.running v s → w'.host.files = w.host.files →
      wp env m Q (fun _ _ => True) w') :
    wp env (do systemctl v s; m) Q (fun _ _ => True) w := by
  rw [wp_bind]
  exact wp_systemctl (fun _ _ _ => trivial) (h _ (systemctl_running _ _ _ _) (systemctl_files _ _ _ _))

/-- The proxy's command is given only where it is installed. -/
theorem wp_proxyCommand {α : Type} {v : Verb} {m : Proc α} {Q : α → World → Prop}
    (h : ∀ w', w'.host.running = (if (w.host.files .rpcProxyBinary).isSome then
        commandedUnits w.host.running v .rpcProxy else w.host.running) →
      wp env m Q (fun _ _ => True) w') :
    wp env (do withRpcProxy (systemctl v .rpcProxy); m) Q (fun _ _ => True) w := by
  rw [wp_bind, withRpcProxy, wp_bind, wp_fileExists]
  simp only [wp_runIf]
  cases hfile : (w.host.files .rpcProxyBinary).isSome with
  | true =>
    rw [hfile] at h
    exact wp_systemctl (fun _ _ _ => trivial) (h _ (systemctl_running _ _ _ _))
  | false =>
    rw [hfile] at h
    exact h _ rfl

theorem wp_status (hs : Steady env) (config stored : Config) {r : Units} (h : w.host.running = r) :
    wp env (do let _ ← CharmHooks.updateStatus config; pure stored)
      (fun _ w' => w'.host.running = r) (fun _ _ => True) w := by
  rw [wp_bind]
  exact wp_mono (updateStatus_asks (asking_steady hs) config w) (fun _ _ h' => h'.trans h)
    fun _ _ _ => trivial

theorem wp_maintenance {α : Type} {m : Proc α} {Q : α → World → Prop}
    (h : ∀ w', w'.host = w.host → wp env m Q (fun _ _ => True) w') :
    wp env (do let _ ← observe .setStatus; m) Q (fun _ _ => True) w := by
  rw [wp_bind]
  exact wp_observe (fun _ _ => trivial) fun _ => h _ rfl

/-- The commands of a handler do to the units what they are meant to do. -/
theorem commands_units (hs : Steady env) (lib : Library) (config : Config) (stored : Stored) {hook : Hook}
    (hhook : Hook.command hook ≠ .keep) :
    wp env (afterRecord lib setResults config stored hook)
      (fun _ w' => w'.host.running = meant (Hook.command hook) (w.host.files .rpcProxyBinary).isSome
        w.host.running) (fun _ _ => True) w := by
  cases hook with
  | install | updateStatus | configChanged | upgradeCharm _ | getNodeHelp | getNodeInfo | printEventLog
  | printReadme | unobserved => exact absurd rfl hhook
  | start =>
    refine wp_command fun w₁ h₁ hf₁ => wp_command fun w₂ h₂ hf₂ => wp_proxyCommand fun w₃ h₃ =>
      wp_status hs config _ ?_
    rw [h₃, h₂, h₁, hf₂, hf₁]
    funext s
    cases (w.host.files .rpcProxyBinary).isSome <;> cases s <;> simp [commandedUnits, meant, Hook.command]
  | startNode =>
    refine wp_maintenance fun w₀ h₀ => wp_command fun w₁ h₁ hf₁ => wp_command fun w₂ h₂ hf₂ =>
      wp_proxyCommand fun w₃ h₃ => wp_status hs config _ ?_
    rw [h₃, h₂, h₁, hf₂, hf₁, h₀]
    funext s
    cases (w.host.files .rpcProxyBinary).isSome <;> cases s <;> simp [commandedUnits, meant, Hook.command]
  | stop =>
    refine wp_command fun w₁ h₁ _ => wp_command fun w₂ h₂ _ => wp_command fun w₃ h₃ _ =>
      wp_status hs config _ ?_
    rw [h₃, h₂, h₁]
    funext s
    cases s <;> simp [commandedUnits, meant, Hook.command]
  | stopNode =>
    refine wp_maintenance fun w₀ h₀ => wp_command fun w₁ h₁ _ => wp_command fun w₂ h₂ _ =>
      wp_command fun w₃ h₃ _ => wp_status hs config _ ?_
    rw [h₃, h₂, h₁]
    funext s
    cases s <;> simp [commandedUnits, meant, Hook.command]
  | restartNode =>
    refine wp_maintenance fun w₀ h₀ => wp_command fun w₁ h₁ hf₁ => wp_command fun w₂ h₂ hf₂ =>
      wp_proxyCommand fun w₃ h₃ => wp_status hs config _ ?_
    rw [h₃, h₂, h₁, hf₂, hf₁, h₀]
    funext s
    cases (w.host.files .rpcProxyBinary).isSome <;> cases s <;> simp [commandedUnits, meant, Hook.command]

theorem observing_units (hs : Steady env) (lib : Library) (config : Config) (stored : Stored) {hook : Hook}
    (hhook : Hook.commands hook = false) :
    Stays env SameUnits (afterRecord lib setResults config stored hook) := by
  have asks : Asking env SameUnits := asking_steady hs
  cases hook with
  | install | configChanged | start | stop | restartNode | startNode | stopNode => cases hhook
  | updateStatus | upgradeCharm _ => exact (updateStatus_asks asks config).bind fun _ => .pure _
  | getNodeHelp | getNodeInfo | printEventLog | printReadme | unobserved =>
    exact (setResults_asks asks _ config stored).bind fun _ => .pure _

theorem onInstall_units (hs : Steady env) (lib : Library) (config : Config) (w : World) :
    wp env (onInstall lib config) (fun _ w' => w'.host.running = w.host.running) (fun _ _ => True) w := by
  have hR : Respects Undisturbed ⟨fun _ => True, fun _ => False, fun _ => False⟩ := respects_undisturbed
  have hsetUp : ∀ op, isQuiet op = true → Stays env Undisturbed (setUp op) := fun _ ho =>
    hR.setUp ho fun _ _ => ⟨rfl, rfl, rfl, [], by simp⟩
  have user : Stays env Undisturbed createUser := createUser_stays hR hsetUp
  have packages : Stays env Undisturbed installDependencies := installDependencies_stays hR hsetUp
  have nodeFiles : Stays env Undisturbed (do
      let _ ← installServiceFile lib .node
      let _ ← updateServiceArgs config false) :=
    (hR.installServiceFile trivial lib).bind fun _ => (hR.updateServiceArgs trivial config).bind fun _ => .pure _
  have monitor : Stays env Undisturbed (installMonitor lib config) :=
    (hR.installServiceFile trivial lib).bind fun _ => hR.installBitcoindMonitor trivial trivial lib config
  have proxy : Stays env Undisturbed (installProxy lib config) :=
    (hR.installRpcProxy trivial trivial lib _).bind fun _ => hR.installRpcProxyService trivial trivial lib config
  have rest : Stays env Undisturbed (do
      installMonitor lib config
      installProxy lib config
      chown) := monitor.bind fun _ => proxy.bind fun _ => hR.chown
  rw [onInstall, wp_bind]
  refine wp_mono (user w) (fun _ w₁ h₁ => ?_) fun _ _ _ => trivial
  rw [wp_bind]
  refine wp_mono (packages w₁) (fun _ w₂ h₂ => ?_) fun _ _ _ => trivial
  rw [wp_bind, installNode, wp_bind]
  refine wp_mono (installBitcoin_units hs lib _ config _ w₂) (fun _ w₃ h₃ => ?_) fun _ _ _ => trivial
  refine wp_mono (nodeFiles w₃) (fun _ w₄ h₄ => ?_) fun _ _ _ => trivial
  refine wp_mono (rest w₄) (fun _ w₅ h₅ => ?_) fun _ _ _ => trivial
  rw [h₅.running, h₄.running, h₃, h₂.running, h₁.running]

/-- A change of options that succeeds, or that is undone without a failure, or that fails only once
it is applied. -/
theorem onConfigChanged_units (hs : Steady env) (lib : Library) (stored config : Config)
    (hfronted : Fronted w.host.running) :
    wp env (onConfigChanged lib stored config) (fun _ w' => w'.host.running = w.host.running)
      (fun _ w' => failures w' = [] → w'.host.running = w.host.running) w := by
  have hkept : w.host.running .node = true ∨ w.host.running .rpcProxy = false := by
    cases hproxy : w.host.running .rpcProxy with
    | true => exact .inl (hfronted hproxy)
    | false => exact .inr rfl
  rw [onConfigChanged, wp_bind]
  refine wp_mono (applyConfigTransaction_units hs lib config _ _ w) (fun _ w₁ h₁ => ?_) fun e w₁ h₁ hclean => ?_
  · rw [activatedUnits_kept (hkept.imp_right .inl)] at h₁
    rw [wp_bind]
    refine wp_mono (updateStatus_asks (asking_steady hs) config w₁) (fun _ w₂ h₂ => ?_) fun _ w₂ h₂ _ => ?_
    · exact h₂.trans h₁
    · exact h₂.trans h₁
  · rcases h₁ with hsame | ⟨-, hback⟩
    · exact hsame
    · rw [hback (failures_eq_nil_iff.1 hclean)]
      exact restartedUnits_kept hkept

end

section
variable (lib : Library) (redaction : Redaction.Library)

/-- A dispatch on a steady machine whose handler returns, or whose changes are undone without a
failure, or that acts on no service. -/
structure Settles (c : Deployment) (d : Dispatch) : Prop where
  steady : Steady d.environment
  ends : completes lib setResults redaction c d = true ∨ Hook.commands d.hook = false ∨
    (d.hook = .configChanged ∧ failures (endWorld (ending lib setResults redaction c d)) = [])

/-- Every dispatch of a run does. -/
def Settled (c : Deployment) : List Dispatch → Prop
  | [] => True
  | d :: ds => Settles lib redaction c d ∧ Settled (dispatch lib setResults redaction c d) ds

/-- What the dispatches of a run ask for, each with whether the proxy is installed by then. -/
def orders (c : Deployment) : List Dispatch → List (Command × Bool)
  | [] => []
  | d :: ds => (Hook.command d.hook, (c.host.files .rpcProxyBinary).isSome) ::
      orders (dispatch lib setResults redaction c d) ds

end

section
variable {lib : Library} {redaction : Redaction.Library} {c : Deployment} {d : Dispatch}
  {ds : List Dispatch}

theorem handle_units (hs : Steady d.environment) (hfronted : Fronted c.host.running) :
    wp d.environment (handle lib setResults redaction d (setDefault c.stored d.config))
      (fun _ w' => w'.host.running = meant (Hook.command d.hook) (c.host.files .rpcProxyBinary).isSome
        c.host.running)
      (fun _ w' => Hook.commands d.hook = false ∨ (d.hook = .configChanged ∧ failures w' = []) →
        w'.host.running = c.host.running) (hookStart c.host) := by
  unfold handle
  cases eventName redaction (setDefault c.stored d.config).options d.config d.hook with
  | error e => exact fun _ => rfl
  | ok name =>
    have hrecorded : ∀ stored : Stored, wp d.environment (afterRecord lib setResults d.config stored d.hook)
        (fun _ w' => w'.host.running = meant (Hook.command d.hook) (c.host.files .rpcProxyBinary).isSome
          c.host.running)
        (fun _ w' => Hook.commands d.hook = false ∨ (d.hook = .configChanged ∧ failures w' = []) →
          w'.host.running = c.host.running) (hookStart c.host) := by
      intro stored
      cases hhook : d.hook with
      | install =>
        rw [afterRecord, wp_bind]
        refine wp_mono (onInstall_units hs lib d.config _) (fun _ w' h' => h') fun _ _ _ h => ?_
        rcases h with h | ⟨h, -⟩ <;> cases h
      | configChanged =>
        refine wp_mono (onConfigChanged_units (w := hookStart c.host) hs lib stored.options d.config hfronted)
          (fun _ w' h' => h') fun _ _ h' h => ?_
        exact h' (h.resolve_left Bool.noConfusion).2
      | start | stop | restartNode | startNode | stopNode =>
        refine wp_mono (commands_units hs lib d.config stored Command.noConfusion) (fun _ _ h' => h')
          fun _ _ _ h => ?_
        rcases h with h | ⟨h, -⟩ <;> cases h
      | updateStatus | upgradeCharm _ | getNodeHelp | getNodeInfo | printEventLog | printReadme | unobserved =>
        exact wp_mono (observing_units hs lib d.config stored rfl _) (fun _ _ h' => h') fun _ _ h' _ => h'
    rw [wp_bind]
    exact wp_mono (hrecorded _) (fun _ _ h => h) fun _ _ h => h

theorem dispatch_units (h : Settles lib redaction c d) (hfronted : Fronted c.host.running) :
    (dispatch lib setResults redaction c d).host.running =
      meant (Hook.command d.hook) (c.host.files .rpcProxyBinary).isSome c.host.running := by
  have hunits := @handle_units lib redaction c d h.steady hfronted
  rw [dispatch_host]
  cases hending : ending lib setResults redaction c d with
  | ok stored w => exact wp_of_ok hunits hending
  | error e w =>
    have hends := h.ends
    rw [hending] at hends
    have hkeep : Hook.command d.hook = .keep ∧ (Hook.commands d.hook = false ∨
        (d.hook = .configChanged ∧ failures w = [])) := by
      rcases hends with hcompletes | hobserves | ⟨hchanged, hclean⟩
      · rw [completes, hending] at hcompletes
        cases hcompletes
      · refine ⟨?_, .inl hobserves⟩
        revert hobserves
        cases d.hook <;> intro h <;> first | rfl | cases h
      · rw [hchanged]
        exact ⟨rfl, .inr ⟨rfl, hclean⟩⟩
    rw [hkeep.1]
    exact wp_of_error hunits hending hkeep.2

end

/-- On steady machines the units follow the commands of the hooks and actions, through every change
of options that succeeds or is undone: the proxy never runs in front of a node that is down, and the
node runs when that was last asked for. -/
theorem run_units {lib : Library} {redaction : Redaction.Library} {c : Deployment} {ds : List Dispatch}
    (hfronted : Fronted c.host.running) (h : Settled lib redaction c ds) :
    (run lib setResults redaction c ds).host.running = follow c.host.running (orders lib redaction c ds) ∧
      Fronted (run lib setResults redaction c ds).host.running ∧
      (run lib setResults redaction c ds).host.running .node =
        ((lastAsked (ds.map fun d => Hook.command d.hook)).map fun k => decide (k ≠ .down)).getD
          (c.host.running .node) := by
  have hrun : (run lib setResults redaction c ds).host.running =
      follow c.host.running (orders lib redaction c ds) ∧
        Fronted (run lib setResults redaction c ds).host.running := by
    induction ds generalizing c with
    | nil => exact ⟨rfl, hfronted⟩
    | cons d ds ih =>
      have hone := dispatch_units h.1 hfronted
      have hnext : Fronted (dispatch lib setResults redaction c d).host.running := by
        rw [hone]
        exact meant_fronted _ _ hfronted
      obtain ⟨hrest, hlast⟩ := ih hnext h.2
      rw [run_cons]
      refine ⟨?_, hlast⟩
      rw [hrest, hone]
      rfl
  have horders : (orders lib redaction c ds).map Prod.fst = ds.map fun d => Hook.command d.hook := by
    clear hrun h hfronted
    induction ds generalizing c with
    | nil => rfl
    | cons d ds ih => rw [orders, List.map_cons, List.map_cons, ih]
  refine ⟨hrun.1, hrun.2, ?_⟩
  rw [hrun.1, follow_node, horders]

/-- Started, and stopped by an action. -/
def operated : List Dispatch := [{ installed with hook := .start }, { installed with hook := .stopNode }]

theorem settled_operated :
    Settled emptyMirror Redaction.readsNothing (undeployed freshWorld.host) operated := by
  have steady : Steady calm := fun _ _ _ => rfl
  refine ⟨⟨steady, .inl ?_⟩, ⟨steady, .inl ?_⟩, trivial⟩
  · decide +kernel
  · decide +kernel

theorem run_units_operated : Fronted (run emptyMirror setResults Redaction.readsNothing
      (undeployed freshWorld.host) operated).host.running ∧
    (run emptyMirror setResults Redaction.readsNothing (undeployed freshWorld.host)
      operated).host.running .node = false :=
  (run_units (c := undeployed freshWorld.host) (fun h => by cases h) settled_operated).2

/-- The node answered after `w`, to the credentials of `config`. -/
def AnsweredSince (config : Config) (w w' : World) : Prop :=
  ∃ t, w.history.length < t ∧
    w'.host.answered = some (t, (config .rpcUser).orEmpty, (config .rpcPassword).orEmpty)

/-- What a status says about the machine between `w`, where the hook sets out to report, and `w'`. -/
inductive Truthful (env : Environment) (config : Config) (w w' : World) : UnitStatus → Prop
  | noNode (missing : w.host.files .binary = none) :
      Truthful env config w w' (.blocked "bitcoind not installed; set version".toList)
  | noProxy (node : (w.host.files .binary).isSome) (missing : w.host.files .rpcProxyBinary = none) :
      Truthful env config w w' (.blocked "rpc-proxy binary not installed; set rpc-proxy-version".toList)
  | down (node : (w.host.files .binary).isSome) (proxy : (w.host.files .rpcProxyBinary).isSome)
      (down : ∃ s, w.host.running s = false) : Truthful env config w w' (.waiting
        (statusMessage (w.host.running .node) (w.host.running .monitor) (w.host.running .rpcProxy)))
  | unready (node : (w.host.files .binary).isSome) (proxy : (w.host.files .rpcProxyBinary).isSome)
      (up : ∀ s, w.host.running s = true) (silent : w'.host.answered = w.host.answered) :
      Truthful env config w w' (.blocked "Bitcoin Core RPC did not become ready".toList)
  | uncollected (node : (w.host.files .binary).isSome) (proxy : (w.host.files .rpcProxyBinary).isSome)
      (up : ∀ s, w.host.running s = true) (answered : AnsweredSince config w w') (error : Str)
      (reported : ∃ hist, (env hist .collectMetadata).metadataError = some error) :
      Truthful env config w w' (.blocked error)
  | ready (node : (w.host.files .binary).isSome) (proxy : (w.host.files .rpcProxyBinary).isSome)
      (up : ∀ s, w.host.running s = true) (answered : AnsweredSince config w w') :
      Truthful env config w w' (.active (statusMessage true true true))

section
variable {env : Environment} {w : World}

/-- Asking more than once for the status of a steady service finds it as it is. -/
theorem serviceRunning_exact (hs : Steady env) (s : Service) (n : ℕ) (w : World) :
    wp env (serviceRunning s (n + 1)) (fun up w' => up = w.host.running s ∧ w'.host = w.host ∧
      w.history.length ≤ w'.history.length) (fun _ _ => True) w := by
  induction n generalizing w with
  | zero =>
    rw [serviceRunning, wp_bind]
    refine wp_getStatus_steady hs (fun _ _ => trivial) ?_
    rw [wp_ite]
    split
    · rename_i hup
      exact ⟨hup.symm, rfl, Nat.le_succ _⟩
    · rename_i hdown
      exact ⟨(Bool.eq_false_of_not_eq_true hdown).symm, rfl, Nat.le_succ _⟩
  | succ n ih =>
    rw [serviceRunning, wp_bind]
    refine wp_getStatus_steady hs (fun _ _ => trivial) ?_
    rw [wp_ite]
    split
    · rename_i hup
      exact ⟨hup.symm, rfl, Nat.le_succ _⟩
    · refine wp_mono (ih ⟨.status s :: w.history, w.host⟩) (fun up w' h => ?_) fun _ _ _ => trivial
      exact ⟨h.1, h.2.1, (Nat.le_succ _).trans h.2.2⟩

theorem wp_setStatus {status : UnitStatus} {Q : UnitStatus → World → Prop}
    (h : Q status ⟨.setStatus :: w.history, w.host⟩) :
    wp env (setStatus status) Q (fun _ _ => True) w := by
  rw [setStatus, wp_bind]
  exact wp_observe (fun _ _ => trivial) fun _ => h

theorem readyStatus_truthful {config : Config} {w₁ : World} (hhost : w₁.host = w.host)
    (hlater : w.history.length ≤ w₁.history.length) (hnode : (w.host.files .binary).isSome)
    (hproxy : (w.host.files .rpcProxyBinary).isSome) (hup : ∀ s, w.host.running s = true) :
    wp env (readyStatus config (statusMessage true true true)) (fun status w' => Truthful env config w w' status)
      (fun _ _ => True) w₁ := by
  rw [readyStatus, wp_bind]
  refine wp_mono (ProcessGenerations.pollVersion_spec _ _ _ w₁) (fun version w₂ h₂ => ?_) fun _ _ _ => trivial
  cases version with
  | none =>
    rcases h₂ with ⟨-, hsilent⟩ | ⟨hsome, -⟩
    · exact wp_setStatus (.unready hnode hproxy hup (by rw [hsilent, hhost]))
    · cases hsome
  | some v =>
    rcases h₂ with ⟨hnone, -⟩ | ⟨-, t, ht, hanswered⟩
    · cases hnone
    · have hsince : ∀ hist, AnsweredSince config w ⟨hist, w₂.host⟩ := fun hist =>
        ⟨t, lt_of_le_of_lt hlater ht, by rw [hanswered]⟩
      simp only [wp_bind]
      refine wp_observe (fun _ _ => trivial) fun _ => ?_
      cases hcollected : (env w₂.history .collectMetadata).metadataError with
      | none => exact wp_setStatus (.ready hnode hproxy hup (hsince _))
      | some error =>
        exact wp_setStatus (.uncollected hnode hproxy hup (hsince _) error ⟨_, hcollected⟩)

end

/-- On a steady machine a status that is set tells what is missing or down; and the unit is active
only with both binaries there, every service up, and a node that has just answered to the configured
credentials. -/
theorem updateStatus_truthful {env : Environment} (hs : Steady env) (config : Config) (w : World) :
    wp env (CharmHooks.updateStatus config) (fun status w' => Truthful env config w w' status)
      (fun _ _ => True) w := by
  rw [CharmHooks.updateStatus, wp_bind]
  refine wp_observe (fun _ _ => trivial) fun _ => ?_
  rw [wp_bind, wp_fileExists]
  simp only
  cases hnode : (w.host.files .binary).isSome with
  | false =>
    exact wp_setStatus (.noNode (Option.isSome_eq_false_iff.1 hnode |> Option.isNone_iff_eq_none.1))
  | true =>
    simp only [wp_bind, wp_fileExists]
    cases hproxy : (w.host.files .rpcProxyBinary).isSome with
    | false =>
      exact wp_setStatus (.noProxy hnode (Option.isSome_eq_false_iff.1 hproxy |> Option.isNone_iff_eq_none.1))
    | true =>
      simp only [serviceStatus, wp_bind]
      refine wp_mono (serviceRunning_exact hs .node 3 _) (fun node w₁ h₁ => ?_) fun _ _ _ => trivial
      refine wp_mono (serviceRunning_exact hs .monitor 3 w₁) (fun monitor w₂ h₂ => ?_) fun _ _ _ => trivial
      refine wp_mono (serviceRunning_exact hs .rpcProxy 3 w₂) (fun proxy w₃ h₃ => ?_) fun _ _ _ => trivial
      obtain ⟨rfl, hhost₁, hlater₁⟩ := h₁
      obtain ⟨rfl, hhost₂, hlater₂⟩ := h₂
      obtain ⟨rfl, hhost₃, hlater₃⟩ := h₃
      rw [hhost₂, hhost₁] at *
      have hhost : w₃.host = w.host := hhost₃
      rw [wp_ite]
      split
      · rename_i hall
        simp only [Bool.and_eq_true] at hall
        have hup : ∀ s, w.host.running s = true := by
          intro s
          cases s with
          | node => exact hall.1.1
          | monitor => exact hall.1.2
          | rpcProxy => exact hall.2
        rw [hup .node, hup .monitor, hup .rpcProxy]
        refine readyStatus_truthful hhost ?_ hnode hproxy hup
        simp only [List.length_cons] at hlater₁
        omega
      · rename_i hdown
        refine wp_setStatus (.down hnode hproxy ?_)
        by_contra hnot
        simp only [not_exists, Bool.not_eq_false] at hnot
        exact hdown (by simp [hnot])

def allUp : World := ⟨[], { files := fun _ => some ⟨[], 0o755⟩, running := fun _ => true }⟩

def isActive : EStateM.Result Exc World UnitStatus → Bool
  | .ok (.active _) _ => true
  | _ => false

theorem updateStatus_truthful_allUp :
    isActive (CharmHooks.updateStatus noOptions ProcessGenerations.answering allUp) = true ∧
      wp ProcessGenerations.answering (CharmHooks.updateStatus noOptions)
        (fun status w' => Truthful ProcessGenerations.answering noOptions allUp w' status)
        (fun _ _ => True) allUp :=
  ⟨by decide +kernel, updateStatus_truthful ProcessGenerations.answering_steady noOptions allUp⟩

end BitcoinRpcOperator.CharmServices
