import BitcoinRpcOperator.CharmFootprint
import BitcoinRpcOperator.LoopbackPin
import BitcoinRpcOperator.PolicyHandOff
import BitcoinRpcOperator.ProcessGenerations

/-!
# Where environment files come from

What is on the disk, and what a process was started with, through runs of hooks and actions
that may raise anywhere. A property of single files carries over to whole runs when every
rendering has it and what interrupted writes leave has it.
-/

namespace BitcoinRpcOperator.CharmEnvironments
open Text ServiceConfiguration FallibleProcedures HostSystem ReleaseInstaller ConfigTransaction
open HostSteps HostFrames TransactionAtomicity GenerationFiles CharmHooks EventLog CharmFootprint
open ProcessGenerations

/-- Every environment file, on the disk or behind a process, is one that `Good` admits. -/
structure Admitted (Good : Service → Bytes → Prop) (h : Host) : Prop where
  file : ∀ s f, h.files (.env s) = some f → Good s f.data
  process : ∀ s f, (h.process s).environment = some f → Good s f.data

def Admits (Good : Service → Bytes → Prop) (w w' : World) : Prop :=
  Admitted Good w.host → Admitted Good w'.host

instance (Good : Service → Bytes → Prop) : Std.Refl (Admits Good) := ⟨fun _ h => h⟩

instance (Good : Service → Bytes → Prop) : IsTrans World (Admits Good) := ⟨fun _ _ _ h h' hw => h' (h hw)⟩

/-- What an interrupted write leaves in an environment file is admitted too. -/
def Tame (Good : Service → Bytes → Prop) (env : Environment) : Prop :=
  ∀ hist s m f, (env hist (.write (.env s))).raises = some m →
    (env hist (.write (.env s))).debris = some f → Good s f.data

def Renders (Good : Service → Bytes → Prop) (config : Config) : Prop :=
  ∀ s, Good s (utf8 (renderEnv config s))

section
variable {Good : Service → Bytes → Prop} {h : Host} {env : Environment} {config : Config}

theorem Admitted.setFile (hA : Admitted Good h) {p : Path} {g : Option FileState}
    (hg : ∀ s f, p = .env s → g = some f → Good s f.data) (t : ℕ) : Admitted Good (h.setFile p g t) := by
  refine ⟨fun s f hf => ?_, hA.process⟩
  by_cases hp : p = .env s
  · rw [← hp, setFile_files_self] at hf
    exact hg s f hp hf
  · rw [setFile_files_ne (Ne.symm hp)] at hf
    exact hA.file s f hf

theorem Admitted.startUnit (hA : Admitted Good h) (s : Service) (t : ℕ) :
    Admitted Good (h.startUnit s t) := by
  have hfiles : (h.startUnit s t).files = h.files := by
    obtain ⟨r, st, heq⟩ := startUnit_eq h s t
    rw [heq]
  refine ⟨fun s' f hf => hA.file s' f (hfiles ▸ hf), fun s' f hf => ?_⟩
  by_cases hs : s' = s
  · subst hs
    cases hup : h.running s' with
    | true =>
      rw [startUnit_process_running hup] at hf
      exact hA.process s' f hf
    | false =>
      rw [startUnit_process_self hup] at hf
      exact hA.file s' f hf
  · rw [startUnit_process_ne h hs] at hf
    exact hA.process s' f hf

theorem Admitted.systemctl (hA : Admitted Good h) (v : Verb) (s : Service) (t : ℕ) :
    Admitted Good (h.systemctl v s t) := by
  have wanted : Admitted Good ((Host.wants s).foldl (fun h u => h.startUnit u t) h) := by
    cases s with
    | rpcProxy => exact hA.startUnit .node t
    | node | monitor => exact hA
  cases v with
  | stop => exact ⟨hA.file, hA.process⟩
  | start => exact wanted.startUnit s t
  | restart =>
    have stopped : Admitted Good (Host.stopUnit ((Host.wants s).foldl (fun h u => h.startUnit u t) h) s) :=
      ⟨wanted.file, wanted.process⟩
    exact stopped.startUnit s t

/-- Files of other kinds are of no account. -/
theorem respects_admits : Respects (Admits Good) ⟨fun p => ∀ s, p ≠ .env s, fun _ => True, fun _ => True⟩ where
  asked := fun _ _ _ hw => hw
  filed := fun _ _ _ hp hw => hw.setFile (fun s _ hs => absurd hs (hp s)) _
  cleared := fun _ _ hw => ⟨hw.file, hw.process⟩
  polled := fun _ _ _ hw => ⟨hw.file, hw.process⟩
  disturbed := fun _ _ _ _ hw => ⟨hw.file, hw.process⟩
  commanded := fun s _ _ v hw => hw.systemctl v s _
  noted := fun _ _ _ _ hw => ⟨hw.file, hw.process⟩

theorem writeEnv_admits (ht : Tame Good env) (hc : Renders Good config) (s : Service) :
    Stays env (Admits Good) (writeFile (.env s) (utf8 (renderEnv config s))) := by
  intro w
  simp only [writeFile, wp_bind]
  refine wp_external (fun m hm hw => hw.setFile (fun s' f hs hf => ?_) _) fun _ hw =>
    hw.setFile (fun s' f hs hf => ?_) _
  · obtain rfl := Path.env.inj hs
    exact ht _ _ m f hm hf
  · obtain rfl := Path.env.inj hs
    rw [← Option.some.inj hf]
    exact hc _

theorem updateServiceArgs_admits (ht : Tame Good env) (hc : Renders Good config) :
    Stays env (Admits Good) (updateServiceArgs config false) :=
  (Stays.runIf (by simp)).bind fun _ => (respects_admits.fileHolds _ _).bind fun _ =>
    (writeEnv_admits ht hc .node).bind fun _ => (Stays.runIf (by simp)).bind fun _ => .pure _

theorem installBitcoindMonitor_admits (ht : Tame Good env) (hc : Renders Good config) (lib : Library) :
    Stays env (Admits Good) (installBitcoindMonitor lib config false) :=
  (respects_admits.mkdirParents _).bind fun _ => (respects_admits.writeFile (by simp) _).bind fun _ =>
    (writeEnv_admits ht hc .monitor).bind fun _ => .runIf (by simp)

theorem installRpcProxyService_admits (ht : Tame Good env) (hc : Renders Good config) (lib : Library) :
    Stays env (Admits Good) (installRpcProxyService lib config false) :=
  (respects_admits.installServiceFile (by simp) lib).bind fun _ =>
    (writeEnv_admits ht hc .rpcProxy).bind fun _ => .runIf (by simp)

theorem installRpcProxy_admits (lib : Library) (version : Str) :
    Stays env (Admits Good) (installRpcProxy lib version) :=
  respects_admits.installRpcProxy (by simp) (by simp) lib version

theorem releases_admits : (⟨fun p => ∀ s, p ≠ .env s, fun _ => True, fun _ => True⟩ : Permit).Releases where
  stage := by simp
  destination := fun t => by cases t <;> simp [Tool.destination]
  services := trivial
  account := fun _ _ => trivial

theorem writeConfigGeneration_admits (ht : Tame Good env) (hc : Renders Good config) (lib : Library)
    (changed : Finset Key) (a : Affected) :
    Stays env (Admits Good) (writeConfigGeneration lib config changed a) :=
  (Stays.runIf fun _ => installRpcProxy_admits lib _).bind fun _ =>
    (Stays.runIf fun _ => (updateServiceArgs_admits ht hc).bind fun _ => .pure _).bind fun _ =>
    (Stays.runIf fun _ => installBitcoindMonitor_admits ht hc lib).bind fun _ =>
    .runIf fun _ => installRpcProxyService_admits ht hc lib

theorem applyGeneration_admits (ht : Tame Good env) (hc : Renders Good config) (lib : Library)
    (changed : Finset Key) (snapshot : Snapshot) :
    Stays env (Admits Good) (applyGeneration lib config changed snapshot) :=
  (writeConfigGeneration_admits ht hc lib changed _).bind fun _ =>
    (respects_admits.activateNode releases_admits lib config changed snapshot _).bind fun _ =>
    (respects_admits.activateMonitor trivial snapshot _).bind fun _ =>
    (respects_admits.activateRpcProxy trivial snapshot _).bind fun _ => respects_admits.checkNode trivial snapshot

/-- A file that is put back was there before; on the way it only ever stands beside its place. -/
theorem restoreFile_admits {p : Path} {f : Option FileState}
    (hf : ∀ s g, p = .env s → f = some g → Good s g.data) : Stays env (Admits Good) (restoreFile p f) := by
  intro w
  cases f with
  | none => exact wp_unlink (fun _ hw => hw) fun hw => hw.setFile (fun _ _ _ hnone => by cases hnone) _
  | some f =>
    have beside : ∀ (s : Service) (g : FileState) (o : Option FileState), Path.temporary p = .env s →
        o = some g → Good s g.data := fun _ _ _ h => by cases h
    have cleanup : ∀ w' : World, Admits Good w w' → wp env (unlink (.temporary p))
        (fun _ => Admits Good w) (fun _ => Admits Good w) w' := fun w' h' =>
      wp_unlink (fun _ => h') fun hw => (h' hw).setFile (fun s g => beside s g _) _
    simp only [restoreFile, wp_bind, wp_onRaise]
    refine wp_perform (fun _ _ hw => hw) fun _ => wp_mkstemp (fun _ hw => hw) ?_
    refine wp_writeFile (fun _ g => cleanup _ fun hw => ?_) (wp_chmod (fun _ _ => cleanup _ fun hw => ?_)
      fun g hg => ?_)
    · exact (hw.setFile (fun s g => beside s g _) _).setFile (fun s g => beside s g _) _
    · exact (hw.setFile (fun s g => beside s g _) _).setFile (fun s g => beside s g _) _
    · refine wp_replace (fun _ _ => cleanup _ fun hw => ?_) fun g' hg' hw => ?_
      · exact ((hw.setFile (fun s g => beside s g _) _).setFile (fun s g => beside s g _) _).setFile
          (fun s g => beside s g _) _
      · rw [setFile_files_self] at hg hg'
        refine Admitted.setFile (Admitted.setFile ?_ ?_ _) (fun s g => beside s g _) _
        · exact ((hw.setFile (fun s g => beside s g _) _).setFile (fun s g => beside s g _) _).setFile
            (fun s g => beside s g _) _
        · intro s g'' hp hg''
          rw [← Option.some.inj hg'', ← Option.some.inj hg', ← Option.some.inj hg]
          exact hf s f hp rfl

theorem rollbackConfigTransaction_admits {snapshot : Snapshot}
    (hsnap : ∀ e ∈ snapshot.files, ∀ s g, e.1 = .env s → e.2 = some g → Good s g.data) (cause : Exc)
    (previous : Config) : Stays env (Admits Good) (rollbackConfigTransaction snapshot cause previous) := by
  have hops : ∀ op ∈ rollbackOperations snapshot, isCaught op.1 ∧ Stays env (Admits Good) op.2 := by
    intro op hop
    simp only [rollbackOperations, List.mem_append] at hop
    rcases hop with hop | hop | hop
    · exact stopOperations_keep respects_admits (fun _ => trivial) op hop
    · obtain ⟨e, he, rfl⟩ := List.mem_map.1 hop
      exact ⟨rfl, restoreFile_admits (hsnap e he)⟩
    · exact startOperations_keep respects_admits (fun _ => trivial) _ op hop
  exact (attemptAll_keep respects_admits (fun _ _ => trivial) hops).bind fun _ =>
    (respects_admits.restoredServiceErrors (fun _ => trivial) (fun _ => ⟨trivial, trivial⟩) snapshot
      previous).bind fun _ => .runIf fun _ => .throw _

/-- The snapshot holds what was there, and that was admitted. -/
theorem applyConfigTransaction_admits (ht : Tame Good env) (hc : Renders Good config) (lib : Library)
    (previous : Config) (changed : Finset Key) :
    Stays env (Admits Good) (applyConfigTransaction lib config previous changed) := by
  refine .runIf fun _ w => ?_
  by_cases hw : Admitted Good w.host
  swap
  · exact wp_mono (wp_trivial _ w) (fun _ _ _ hw' => absurd hw' hw) fun _ _ _ hw' => absurd hw' hw
  rw [wp_bind]
  refine wp_mono (wp_and (respects_admits.captureConfigTransaction (fun _ => trivial) w) (capture_files w))
    (fun snapshot w₁ h₁ => ?_) fun _ _ h => h.1
  have hsnap : ∀ e ∈ snapshot.files, ∀ s g, e.1 = .env s → e.2 = some g → Good s g.data := by
    intro e he s g hs hg
    rw [h₁.2] at he
    obtain ⟨p, -, rfl⟩ := List.mem_map.1 he
    obtain rfl : p = .env s := hs
    exact hw.file s g hg
  have guarded : Stays env (Admits Good) (tryCatch (applyGeneration lib config changed snapshot) fun exc => do
      rollbackConfigTransaction snapshot exc previous
      throw exc) :=
    (applyGeneration_admits ht hc lib changed snapshot).tryCatch fun exc =>
      (rollbackConfigTransaction_admits hsnap exc previous).bind fun _ => .throw _
  exact wp_mono (guarded w₁) (fun _ _ h => trans_of (Admits Good) h₁.1 h)
    fun _ _ h => trans_of (Admits Good) h₁.1 h

theorem onInstall_admits (ht : Tame Good env) (hc : Renders Good config) (lib : Library) :
    Stays env (Admits Good) (onInstall lib config) := by
  have hR : Respects (Admits Good) _ := respects_admits
  have hsetUp : ∀ op, isQuiet op = true → Stays env (Admits Good) (setUp op) := fun _ ho =>
    hR.setUp ho fun _ _ hw => ⟨hw.file, hw.process⟩
  have user : Stays env (Admits Good) createUser := createUser_stays hR hsetUp
  have packages : Stays env (Admits Good) installDependencies := installDependencies_stays hR hsetUp
  have node : Stays env (Admits Good) (installNode lib config) :=
    (hR.installBitcoin releases_admits lib _ config _).bind fun _ =>
      (hR.installServiceFile (by simp) lib).bind fun _ => (updateServiceArgs_admits ht hc).bind fun _ => .pure _
  have monitor : Stays env (Admits Good) (installMonitor lib config) :=
    (hR.installServiceFile (by simp) lib).bind fun _ => installBitcoindMonitor_admits ht hc lib
  have proxy : Stays env (Admits Good) (installProxy lib config) :=
    (installRpcProxy_admits lib _).bind fun _ => installRpcProxyService_admits ht hc lib
  exact user.bind fun _ => packages.bind fun _ => node.bind fun _ => monitor.bind fun _ =>
    proxy.bind fun _ => hR.chown

theorem afterRecord_admits {hook : Hook}
    (h : Hook.writes hook = true → Tame Good env ∧ Renders Good config) (lib : Library) (stored : Stored) :
    Stays env (Admits Good) (afterRecord lib setResults config stored hook) := by
  have hR : Respects (Admits Good) _ := respects_admits
  cases hhook : Hook.writes hook with
  | false => exact operates_stays hR (fun _ => trivial) lib config stored hhook
  | true =>
    obtain ⟨ht, hc⟩ := h hhook
    cases hook with
    | install => exact (onInstall_admits ht hc lib).bind fun _ => .pure _
    | configChanged =>
      exact (applyConfigTransaction_admits ht hc lib _ _).bind fun _ =>
        (updateStatus_asks (asking_of_respects hR fun _ => trivial) config).bind fun _ => .pure _
    | start | stop | updateStatus | upgradeCharm _ | getNodeHelp | getNodeInfo | printEventLog
    | printReadme | restartNode | startNode | stopNode | unobserved => cases hhook

variable {lib : Library} {redaction : Redaction.Library} {c : Deployment} {d : Dispatch}
  {ds : List Dispatch}

theorem admitted_dispatch (hd : Hook.writes d.hook = true → Tame Good d.environment ∧ Renders Good d.config)
    (h : Admitted Good c.host) : Admitted Good (dispatch lib setResults redaction c d).host := by
  have hstart : Admitted Good (hookStart c.host).host := ⟨h.file, h.process⟩
  rw [dispatch_host]
  exact ending_stays (fun stored => afterRecord_admits hd lib stored) hstart

/-- Only the hooks that lay down files have to keep to `Good`. -/
theorem admitted_run
    (hds : ∀ d ∈ ds, Hook.writes d.hook = true → Tame Good d.environment ∧ Renders Good d.config)
    (h : Admitted Good c.host) : Admitted Good (run lib setResults redaction c ds).host := by
  induction ds generalizing c with
  | nil => exact h
  | cons d ds ih =>
    have hone : Admitted Good (dispatch lib setResults redaction c d).host :=
      admitted_dispatch (hds d List.mem_cons_self) h
    exact ih (fun d hd => hds d (List.mem_cons_of_mem _ hd)) hone

end

/-- Content that a host has in the environment file of `s`, or that its process was started with. -/
def Present (h : Host) (s : Service) (data : Bytes) : Prop :=
  (∃ f, h.files (.env s) = some f ∧ f.data = data) ∨
    ∃ f, (h.process s).environment = some f ∧ f.data = data

/-- What a dispatch can have put there: the rendering of its options, or the remains of a write
that raised. -/
def Puts (d : Dispatch) (s : Service) (data : Bytes) : Prop :=
  data = utf8 (renderEnv d.config s) ∨
    ∃ hist m f, (d.environment hist (.write (.env s))).raises = some m ∧
      (d.environment hist (.write (.env s))).debris = some f ∧ f.data = data

/-- Every environment file and the environment of every process, at any point of any run, was there
at the start, or was put there by an `install` or a `config-changed` of the run. -/
theorem run_provenance (lib : Library) (redaction : Redaction.Library) (c : Deployment)
    (ds : List Dispatch) (s : Service) (data : Bytes)
    (h : Present (run lib setResults redaction c ds).host s data) :
    Present c.host s data ∨ ∃ d ∈ ds, Hook.writes d.hook = true ∧ Puts d s data := by
  have hstart : Admitted (fun s data => Present c.host s data ∨
      ∃ d ∈ ds, Hook.writes d.hook = true ∧ Puts d s data) c.host :=
    ⟨fun s f hf => .inl (.inl ⟨f, hf, rfl⟩), fun s f hf => .inl (.inr ⟨f, hf, rfl⟩)⟩
  have hrun := @admitted_run _ lib redaction c ds (fun d hd hhook =>
    ⟨fun hist s m f hm hf => .inr ⟨d, hd, hhook, .inr ⟨hist, m, f, hm, hf, rfl⟩⟩,
      fun s => .inr ⟨d, hd, hhook, .inl rfl⟩⟩) hstart
  rcases h with ⟨f, hf, rfl⟩ | ⟨f, hf, rfl⟩
  · exact hrun.file s f hf
  · exact hrun.process s f hf

def brought : List Dispatch := [installed, { installed with hook := .start }]

theorem present_brought : Present (run ReleaseAtomicity.emptyMirror setResults Redaction.readsNothing
    (undeployed ReleaseAtomicity.freshWorld.host) brought).host .node (utf8 (renderEnv noOptions .node)) := by
  have hfile : ((run ReleaseAtomicity.emptyMirror setResults Redaction.readsNothing
      (undeployed ReleaseAtomicity.freshWorld.host) brought).host.files (.env .node)).map (·.data) =
      some (utf8 (renderEnv noOptions .node)) := by decide +kernel
  obtain ⟨f, hf, hdata⟩ := Option.map_eq_some_iff.1 hfile
  exact .inl ⟨f, hf, hdata⟩

theorem run_provenance_brought :
    Present (undeployed ReleaseAtomicity.freshWorld.host).host .node (utf8 (renderEnv noOptions .node)) ∨
      ∃ d ∈ brought, Hook.writes d.hook = true ∧ Puts d .node (utf8 (renderEnv noOptions .node)) :=
  run_provenance _ _ _ brought .node _ present_brought

/-- The environment file of `s`, and the one its process was started on, have `P`. -/
structure Keeps (P : Bytes → Prop) (s : Service) (h : Host) : Prop where
  file : ∀ f, h.files (.env s) = some f → P f.data
  process : ∀ f, (h.process s).environment = some f → P f.data

/-- The options are rendered to a file with `P`, and an interrupted write does not leave another. -/
structure Maintains (P : Bytes → Prop) (s : Service) (d : Dispatch) : Prop where
  rendered : P (utf8 (renderEnv d.config s))
  interrupted : Tame (fun s' data => s' = s → P data) d.environment

theorem keeps_run {P : Bytes → Prop} {s : Service} {lib : Library} {redaction : Redaction.Library}
    {c : Deployment} {ds : List Dispatch} (hstart : Keeps P s c.host)
    (hds : ∀ d ∈ ds, Hook.writes d.hook = true → Maintains P s d) :
    Keeps P s (run lib setResults redaction c ds).host := by
  have hadmitted : Admitted (fun s' data => s' = s → P data) c.host := by
    refine ⟨fun s' f hf hs => ?_, fun s' f hf hs => ?_⟩
    · subst hs
      exact hstart.file f hf
    · subst hs
      exact hstart.process f hf
  have hrun := @admitted_run _ lib redaction c ds (fun d hd hhook => by
    obtain ⟨hrendered, hinterrupted⟩ := hds d hd hhook
    refine ⟨hinterrupted, fun s' hs => ?_⟩
    subst hs
    exact hrendered) hadmitted
  exact ⟨fun f hf => hrun.file s f hf rfl, fun f hf => hrun.process s f hf rfl⟩

/-- However the text of this file is read, the node is bound to the loopback addresses. -/
def PinnedFile (data : Bytes) : Prop :=
  ∀ text, utf8 text = data → LoopbackPin.LoopbackPinned
    (SystemdArguments.splitWords ((SystemdArguments.variableValue LoopbackPin.variableName text).getD []))

/-- Neither the node's environment file nor its process lets anybody in. -/
structure PinnedNode (h : Host) : Prop where
  file : ∀ f, h.files (.env .node) = some f → PinnedFile f.data
  process : ∀ f, (h.process .node).environment = some f → PinnedFile f.data

/-- Options without quoting and without an RPC option hidden in a credential, on a host where an
interrupted write lets nobody in. -/
structure Confined (d : Dispatch) : Prop where
  options : LoopbackPin.PlainOptions d.config
  injected : ∀ w ∈ LoopbackPin.injectedWords d.config, ∀ opt ∈ rpcBindOpts,
    LoopbackPin.isOption opt w = false
  interrupted : Tame (fun s data => s = .node → PinnedFile data) d.environment

theorem pinned_of_uninjected {config : Config} (hplain : LoopbackPin.PlainOptions config)
    (h : ∀ w ∈ LoopbackPin.injectedWords config, ∀ opt ∈ rpcBindOpts, LoopbackPin.isOption opt w = false) :
    LoopbackPin.LoopbackPinned (LoopbackPin.nodeArguments config) := by
  have kind : ∀ opt ∈ rpcBindOpts, (LoopbackPin.nodeArguments config).filter (LoopbackPin.isOption opt) =
      pinnedTokens.filter (LoopbackPin.isOption opt) := by
    intro opt hopt
    rw [LoopbackPin.filter_nodeArguments hplain hopt, List.append_right_eq_self, List.filter_eq_nil_iff]
    intro w hw
    rw [h w hw opt hopt]
    exact Bool.false_ne_true
  have allowIp := kind "rpcallowip".toList (by decide)
  have bind := kind "rpcbind".toList (by decide)
  have port := kind "rpcport".toList (by decide)
  exact ⟨allowIp, bind, port⟩

theorem pinnedFile_render {config : Config} (hplain : LoopbackPin.PlainOptions config)
    (h : ∀ w ∈ LoopbackPin.injectedWords config, ∀ opt ∈ rpcBindOpts, LoopbackPin.isOption opt w = false) :
    PinnedFile (utf8 (renderEnv config .node)) := by
  intro text htext
  obtain rfl : text = renderNodeEnv config := utf8_injective htext
  exact pinned_of_uninjected hplain h

/-- Through every run of hooks and actions, whatever raises and is rolled back, the node is never
started, and never set up to be started, with its RPC bound to anything but the loopback. -/
theorem run_pinned (lib : Library) (redaction : Redaction.Library) {c : Deployment} {ds : List Dispatch}
    (hstart : PinnedNode c.host) (hds : ∀ d ∈ ds, Hook.writes d.hook = true → Confined d) :
    PinnedNode (run lib setResults redaction c ds).host := by
  have hkeeps : Keeps PinnedFile .node c.host := ⟨hstart.file, hstart.process⟩
  obtain ⟨hfile, hprocess⟩ := @keeps_run _ _ lib redaction c ds hkeeps fun d hd hhook => by
    obtain ⟨hplain, hinjected, hinterrupted⟩ := hds d hd hhook
    exact ⟨pinnedFile_render hplain hinjected, hinterrupted⟩
  exact ⟨hfile, hprocess⟩

theorem run_pinned_brought : PinnedNode (run ReleaseAtomicity.emptyMirror setResults Redaction.readsNothing
    (undeployed ReleaseAtomicity.freshWorld.host) brought).host := by
  have hstart : PinnedNode (undeployed ReleaseAtomicity.freshWorld.host).host :=
    ⟨fun f hf => absurd hf (Option.some_ne_none f).symm, fun f hf => absurd hf (Option.some_ne_none f).symm⟩
  refine run_pinned _ _ hstart fun d hd hhook => ?_
  have hcalm : d.environment = ReleaseAtomicity.calm ∧ d.config = noOptions := by
    simp only [brought, List.mem_cons, List.not_mem_nil, or_false] at hd
    rcases hd with rfl | rfl <;> exact ⟨rfl, rfl⟩
  refine ⟨?_, ?_, ?_⟩
  · rw [hcalm.2]
    refine ⟨?_, fun h => absurd h (by decide), fun h => absurd h (by decide)⟩
    intro c hc
    exact absurd hc List.not_mem_nil
  · rw [hcalm.2]
    decide
  · rw [hcalm.1]
    intro hist s m f hm
    cases hm

/-- However the text of this file is read, a proxy that accepts its configuration filters. -/
def FilteringFile (data : Bytes) : Prop :=
  ∀ text, utf8 text = data → ∀ (golib : ProxyConfiguration.GoLibrary) (cfg : ProxyConfiguration.ProxyConfig)
    (version : Bool), ProxyConfiguration.parse golib {} (fun name => SystemdArguments.variableValue name text) =
      .ok (cfg, version) → cfg.filter = true

structure FilteringProxy (h : Host) : Prop where
  file : ∀ f, h.files (.env .rpcProxy) = some f → FilteringFile f.data
  process : ∀ f, (h.process .rpcProxy).environment = some f → FilteringFile f.data

/-- The filter is on, no option needs quoting, and an interrupted write leaves the beginning of what
was to be written, or some other file that does not turn the filter off. -/
structure KeepsFilter (d : Dispatch) : Prop where
  filter : (d.config .rpcProxyFilter).truthy = true
  bare : ∀ k s, d.config k = .str s → SystemdArguments.Bare s
  interrupted : Tame (fun s data => s = .rpcProxy →
    data <+: utf8 (renderEnv d.config .rpcProxy) ∨ FilteringFile data) d.environment

theorem toText_bare {v : Value} (h : ∀ s, v = .str s → SystemdArguments.Bare s) (hv : v.truthy = true) :
    SystemdArguments.Bare v.toText := by
  have hbool : ∀ b : Bool, SystemdArguments.Bare (Value.bool b).toText := by
    unfold SystemdArguments.Bare
    decide
  cases v with
  | none => cases hv
  | bool b => exact hbool b
  | str s => exact h s rfl

theorem bareLines_rpcProxy {config : Config} (h : ∀ k s, config k = .str s → SystemdArguments.Bare s) :
    SystemdArguments.BareLines (rpcProxyEnv.map fun e =>
      (e.1, EnvironmentLines.rpcProxyValue config e.1 e.2)) := by
  have hdefault : ∀ e ∈ rpcProxyEnv, SystemdArguments.Bare e.2 := by
    unfold SystemdArguments.Bare
    decide
  have hfilter : ∀ b : Bool, SystemdArguments.Bare (if b then "true".toList else "false".toList) := by
    unfold SystemdArguments.Bare
    decide
  have hoverride : ∀ key, (rpcProxyOverride config key).truthy = true →
      SystemdArguments.Bare (rpcProxyOverride config key).toText := by
    intro key
    unfold rpcProxyOverride
    split_ifs
    · exact toText_bare (h _)
    · exact toText_bare (h _)
    · exact toText_bare (h _)
    · exact toText_bare (h _)
    · exact fun h => Bool.noConfusion h
  intro e he
  obtain ⟨d, hd, rfl⟩ := List.mem_map.1 he
  refine ⟨(EnvironmentLines.rpcProxyEnv_names d hd).1, (EnvironmentLines.rpcProxyEnv_names d hd).2, ?_⟩
  simp only [EnvironmentLines.rpcProxyValue]
  split_ifs with hkey htrue hset
  · exact hfilter true
  · exact hfilter false
  · exact hoverride _ hset
  · exact hdefault d hd

/-- What the proxy finds in its environment, of two lines with one name in the later. -/
theorem variableValue_rpcProxy {config : Config} (hbare : ∀ k s, config k = .str s → SystemdArguments.Bare s)
    {key value : Str} (hkey : rpcProxyEnv.findRev? (·.1 == key) = some (key, value)) :
    SystemdArguments.variableValue key (renderRpcProxyEnv config) =
      some (stripBy SystemdArguments.isBlank (EnvironmentLines.rpcProxyValue config key value)) := by
  rw [EnvironmentLines.renderRpcProxyEnv_eq, SystemdArguments.variableValue_lines (bareLines_rpcProxy hbare),
    SystemdArguments.lastValue_map rpcProxyEnv fun e => EnvironmentLines.rpcProxyValue config e.1 e.2, hkey]
  rfl

/-- Wherever the file is cut off, what is left of the line of the filter does not say `false`. -/
theorem filteringFile_cut {config : Config} (hfilter : (config .rpcProxyFilter).truthy = true)
    (hbare : ∀ k s, config k = .str s → SystemdArguments.Bare s) {data : Bytes}
    (hdata : data <+: utf8 (renderEnv config .rpcProxy)) : FilteringFile data := by
  rintro text rfl golib cfg version hparse
  have hfront : text <+: renderRpcProxyEnv config := isPrefix_of_utf8 hdata
  rw [EnvironmentLines.renderRpcProxyEnv_eq] at hfront
  refine ProxyConfiguration.applyEnvBool_true (ProxyConfiguration.parse_policy hparse).2 fun value hvalue => ?_
  obtain ⟨a, ha, rfl⟩ := Option.map_eq_some_iff.1 hvalue
  rw [List.findRev?_eq_find?_reverse] at ha
  have hfound := List.find?_some ha
  have hkey : a.1 = "PROXY_FILTER".toList := eq_of_beq hfound
  obtain ⟨e, he, hname, v, hv, hread⟩ := SystemdArguments.mem_readFile_cut (bareLines_rpcProxy hbare)
    hfront a (List.mem_reverse.1 (List.mem_of_find?_eq_some ha))
  obtain ⟨d, -, rfl⟩ := List.mem_map.1 he
  have hon : EnvironmentLines.rpcProxyValue config d.1 d.2 = "true".toList := by
    rw [EnvironmentLines.rpcProxyValue, if_pos (hname.symm.trans hkey), if_pos hfilter]
  have hcut : ∀ v ∈ "true".toList.inits,
      ProxyConfiguration.parseBool (stripBy SystemdArguments.isBlank v) ≠ some false := by decide
  rw [hon] at hv
  rw [hread]
  exact hcut v ((List.mem_inits _ _).2 hv)

/-- As long as no hook is given the option off, no proxy is ever started without its filter. -/
theorem run_filtering (lib : Library) (redaction : Redaction.Library) {c : Deployment} {ds : List Dispatch}
    (hstart : FilteringProxy c.host) (hds : ∀ d ∈ ds, Hook.writes d.hook = true → KeepsFilter d) :
    FilteringProxy (run lib setResults redaction c ds).host := by
  have hkeeps : Keeps FilteringFile .rpcProxy c.host := ⟨hstart.file, hstart.process⟩
  obtain ⟨hfile, hprocess⟩ := @keeps_run _ _ lib redaction c ds hkeeps fun d hd hhook => by
    obtain ⟨hfilter, hbare, hinterrupted⟩ := hds d hd hhook
    refine ⟨filteringFile_cut hfilter hbare (List.prefix_refl _), fun hist s m f hm hf hs => ?_⟩
    exact (hinterrupted hist s m f hm hf hs).elim (filteringFile_cut hfilter hbare) id
  exact ⟨hfile, hprocess⟩

def filtered : List Dispatch :=
  brought.map fun d => { d with config := Function.update noOptions .rpcProxyFilter (.bool true) }

theorem run_filtering_filtered : FilteringProxy (run ReleaseAtomicity.emptyMirror setResults
    Redaction.readsNothing (undeployed ReleaseAtomicity.freshWorld.host) filtered).host := by
  have hstart : FilteringProxy (undeployed ReleaseAtomicity.freshWorld.host).host :=
    ⟨fun f hf => absurd hf (Option.some_ne_none f).symm, fun f hf => absurd hf (Option.some_ne_none f).symm⟩
  refine run_filtering _ _ hstart fun d hd _ => ?_
  have hsame : d.environment = ReleaseAtomicity.calm ∧
      d.config = Function.update noOptions .rpcProxyFilter (.bool true) := by
    simp only [filtered, brought, List.map_cons, List.map_nil, List.mem_cons, List.not_mem_nil, or_false] at hd
    rcases hd with rfl | rfl <;> exact ⟨rfl, rfl⟩
  refine ⟨?_, fun k s hk => ?_, ?_⟩
  · rw [hsame.2]
    rfl
  · rw [hsame.2] at hk
    cases k <;> cases hk
  · rw [hsame.1]
    intro hist s m f hm
    cases hm

end BitcoinRpcOperator.CharmEnvironments
