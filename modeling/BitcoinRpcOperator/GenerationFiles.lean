import BitcoinRpcOperator.ReleaseAtomicity

/-!
# The files of a generation

What a transaction that returns has written: the environment files and the proxy's
binary in the first phase, the node's binaries in the second. The key sets that decide
what is rewritten cover the options each rendering reads.
-/

namespace BitcoinRpcOperator.GenerationFiles
open Text ServiceConfiguration FallibleProcedures HostSystem ReleaseInstaller ConfigTransaction
open HostSteps HostFrames ReleaseAtomicity

variable {env : Environment} {w : World}

/-- What writing to a file leaves there: an existing mode is kept. -/
def overwritten (old : Option FileState) (data : Bytes) : FileState :=
  ⟨data, (old.map (·.mode)).getD 0o644⟩

theorem overwritten_self {f : FileState} : overwritten (some f) f.data = f := rfl

/-- `m` writes the environment file of `s` for `config`. -/
def WritesEnv (env : Environment) (config : Config) (s : Service) (m : Proc Unit) : Prop :=
  ∀ w, wp env m (fun _ w' => w'.host.files (.env s) =
    some (overwritten (w.host.files (.env s)) (utf8 (renderEnv config s)))) (fun _ _ => True) w

theorem writeEnv (config : Config) (s : Service) :
    WritesEnv env config s (writeFile (.env s) (utf8 (renderEnv config s))) := fun _ =>
  wp_writeFile (fun _ _ => trivial) (setFile_files_self _ _ _ _)

/-- Steps that do not touch the file may come before. -/
theorem WritesEnv.after {β : Type} {config : Config} {s : Service} {f : β → Proc Unit}
    (h : ∀ b, WritesEnv env config s (f b)) {S : Path → Prop} (hs : ¬ S (.env s)) {m : Proc β}
    (hm : Stays env (SameOutside S) m) : WritesEnv env config s (m >>= f) := by
  intro w
  rw [wp_bind]
  refine wp_mono (hm w) (fun b w₁ h₁ => ?_) fun _ _ _ => trivial
  have hsame : w₁.host.files (.env s) = w.host.files (.env s) := (h₁ _ hs).1
  exact wp_mono (h b w₁) (fun _ w' h' => by rw [h', hsame]) fun _ _ _ => trivial

/-- No restart was asked for. -/
theorem WritesEnv.withoutRestart {config : Config} {s : Service} {m : Proc Unit}
    (h : WritesEnv env config s m) (restart : Proc Unit) :
    WritesEnv env config s (do m; runIf (false = true) restart) := by
  intro w
  rw [wp_bind]
  refine wp_mono (h w) (fun _ _ h' => ?_) fun _ _ _ => trivial
  rw [wp_runIf, if_neg (by simp)]
  exact h'

theorem updateServiceArgs_writes (config : Config) :
    WritesEnv env config .node (do let _ ← updateServiceArgs config false) := by
  have hR := respects_sameOutside fun _ => False
  intro w
  simp only [updateServiceArgs, wp_bind, wp_runIf, Bool.false_eq_true, if_false, wp_pure]
  refine wp_mono (hR.fileHolds _ _ w) (fun _ w₁ h₁ => ?_) fun _ _ _ => trivial
  refine wp_mono (writeEnv config .node w₁) (fun _ w' h' => ?_) fun _ _ _ => trivial
  rw [h', (h₁ _ id).1]

theorem installBitcoindMonitor_writes (lib : Library) (config : Config) :
    WritesEnv env config .monitor (installBitcoindMonitor lib config false) := by
  have hR := respects_sameOutside fun p => p = .monitorScript
  exact .after (fun _ => .after (fun _ => (writeEnv config .monitor).withoutRestart _) (by simp)
    (hR.writeFile rfl _)) (by simp) (hR.mkdirParents _)

theorem installRpcProxyService_writes (lib : Library) (config : Config) :
    WritesEnv env config .rpcProxy (installRpcProxyService lib config false) := by
  have hR := respects_sameOutside fun p => p = .unit .rpcProxy
  exact .after (fun _ => (writeEnv config .rpcProxy).withoutRestart _) (by simp)
    (hR.installServiceFile rfl lib)

def rpcProxyUrl (version : Str) : Str := replaceAll "VERSION".toList version rpcProxyDlUrl

theorem fetch_returns (lib : Library) (url : Str) (w : World) :
    wp env (fetch lib url) (fun r _ => r = lib.web url) (fun _ _ => True) w :=
  wp_mono (fetch_spec lib url w) (fun _ _ h => h.1) fun _ _ _ => trivial

theorem installRpcProxy_spec (lib : Library) {version : Str} (hv : version ≠ []) (w : World) :
    wp env (installRpcProxy lib version) (fun _ w' => w'.host.files .rpcProxyBinary =
      some ⟨(lib.web (rpcProxyUrl version)).content, 0o755⟩) (fun _ _ => True) w := by
  rw [installRpcProxy, wp_runIf, if_pos (by simpa using hv)]
  simp only [wp_bind, wp_onRaise]
  refine wp_mono (fetch_returns lib _ w) (fun response w₁ h₁ => ?_) fun _ _ _ => trivial
  subst h₁
  refine wp_mkstemp (fun _ => trivial) ?_
  have cleanup : ∀ w' : World, wp env (unlink (.temporary .rpcProxyBinary)) (fun _ _ => True)
      (fun _ _ => True) w' := fun w' => wp_trivial _ w'
  refine wp_writeFile (fun _ _ => cleanup _) (wp_chmod (fun _ _ => cleanup _) fun f hf => ?_)
  refine wp_replace (fun _ _ => cleanup _) fun f' hf' => wp_perform (fun _ _ => trivial) fun _ => ?_
  rw [setFile_files_self] at hf hf'
  rw [setFile_files_ne (by simp), setFile_files_self, ← hf', ← Option.some.inj hf]
  rfl

/-- Whether the first phase writes the environment file of a service. -/
def Affected.rewrites (a : Affected) : Service → Bool
  | .node => a.node
  | .monitor => a.credentials
  | .rpcProxy => a.proxy

/-- The environment file of `s` once the first phase is past it. -/
def envAfter (config : Config) (a : Affected) (s : Service) (old : Option FileState) :
    Option FileState :=
  if Affected.rewrites a s then some (overwritten old (utf8 (renderEnv config s))) else old

theorem runIf_writes {config : Config} {s : Service} {m : Proc Unit} {c : Bool}
    (h : WritesEnv env config s m) (w : World) :
    wp env (runIf c m) (fun _ w' => w'.host.files (.env s) = if c then
      some (overwritten (w.host.files (.env s)) (utf8 (renderEnv config s)))
      else w.host.files (.env s)) (fun _ _ => True) w := by
  rw [wp_runIf]
  cases c with
  | false => simp
  | true => simpa using h w

/-- The proxy's binary once the first phase is past it. -/
def proxyBinaryAfter (lib : Library) (config : Config) (changed : Finset Key)
    (old : Option FileState) : Option FileState :=
  if .rpcProxyVersion ∈ changed ∧ (config .rpcProxyVersion).orEmpty ≠ [] then
    some ⟨(lib.web (rpcProxyUrl (config .rpcProxyVersion).orEmpty)).content, 0o755⟩
  else old

theorem runIf_installRpcProxy_spec (lib : Library) (config : Config) (changed : Finset Key)
    (w : World) :
    wp env (runIf (.rpcProxyVersion ∈ changed)
        (installRpcProxy lib (config .rpcProxyVersion).orEmpty))
      (fun _ w' => w'.host.files .rpcProxyBinary =
        proxyBinaryAfter lib config changed (w.host.files .rpcProxyBinary))
      (fun _ _ => True) w := by
  rw [wp_runIf]
  by_cases hc : Key.rpcProxyVersion ∈ changed
  · rw [if_pos hc]
    by_cases hv : (config .rpcProxyVersion).orEmpty = []
    · rw [hv]
      simp [installRpcProxy, wp_runIf, proxyBinaryAfter, hv]
    · rw [proxyBinaryAfter, if_pos ⟨hc, hv⟩]
      exact installRpcProxy_spec lib hv w
  · rw [if_neg hc]
    simp [proxyBinaryAfter, hc]

/-- The files a service runs on, after the first phase. -/
structure FirstPhase (lib : Library) (config : Config) (changed : Finset Key) (a : Affected)
    (w w' : World) : Prop where
  envs : ∀ s, w'.host.files (.env s) = envAfter config a s (w.host.files (.env s))
  proxyBinary : w'.host.files .rpcProxyBinary =
    proxyBinaryAfter lib config changed (w.host.files .rpcProxyBinary)
  binaries : ∀ t : Tool, w'.host.files t.destination = w.host.files t.destination

theorem writeConfigGeneration_spec (lib : Library) (config : Config) (changed : Finset Key)
    (a : Affected) (w : World) :
    wp env (writeConfigGeneration lib config changed a)
      (fun _ w' => FirstPhase lib config changed a w w') (fun _ _ => True) w := by
  have hR := fun S => respects_sameOutside S
  have frame₁ : Stays env (SameOutside fun p => p ∈ [.rpcProxyBinary, .temporary .rpcProxyBinary])
      (runIf (.rpcProxyVersion ∈ changed) (installRpcProxy lib (config .rpcProxyVersion).orEmpty)) :=
    .runIf fun _ => (hR _).installRpcProxy (by simp) (by simp) lib _
  have frame₂ : Stays env (SameOutside fun p => p ∈ [.env .node])
      (runIf a.node do let _ ← updateServiceArgs config false) :=
    .runIf fun _ => ((hR _).updateServiceArgs (by simp) config).bind fun _ => .pure _
  have frame₃ : Stays env (SameOutside fun p => p ∈ [.monitorScript, .env .monitor])
      (runIf a.credentials (installBitcoindMonitor lib config false)) :=
    .runIf fun _ => (hR _).installBitcoindMonitor (by simp) (by simp) lib config
  have frame₄ : Stays env (SameOutside fun p => p ∈ [.unit .rpcProxy, .env .rpcProxy])
      (runIf a.proxy (installRpcProxyService lib config false)) :=
    .runIf fun _ => (hR _).installRpcProxyService (by simp) (by simp) lib config
  simp only [writeConfigGeneration, wp_bind]
  refine wp_mono (wp_and (frame₁ w) (runIf_installRpcProxy_spec lib config changed w))
    (fun _ w₁ h₁ => ?_) fun _ _ _ => trivial
  refine wp_mono (wp_and (frame₂ w₁) (runIf_writes (updateServiceArgs_writes config) w₁))
    (fun _ w₂ h₂ => ?_) fun _ _ _ => trivial
  refine wp_mono (wp_and (frame₃ w₂) (runIf_writes (installBitcoindMonitor_writes lib config) w₂))
    (fun _ w₃ h₃ => ?_) fun _ _ _ => trivial
  refine wp_mono (wp_and (frame₄ w₃) (runIf_writes (installRpcProxyService_writes lib config) w₃))
    (fun _ w₄ h₄ => ?_) fun _ _ _ => trivial
  obtain ⟨f₁, hproxy⟩ := h₁
  obtain ⟨f₂, hnode⟩ := h₂
  obtain ⟨f₃, hmonitor⟩ := h₃
  obtain ⟨f₄, hrpc⟩ := h₄
  refine ⟨fun s => ?_, ?_, fun t => ?_⟩
  · cases s with
    | node =>
      rw [(f₄ _ (by simp)).1, (f₃ _ (by simp)).1, hnode, (f₁ _ (by simp)).1]
      rfl
    | monitor =>
      rw [(f₄ _ (by simp)).1, hmonitor, (f₂ _ (by simp)).1, (f₁ _ (by simp)).1]
      rfl
    | rpcProxy =>
      rw [hrpc, (f₃ _ (by simp)).1, (f₂ _ (by simp)).1, (f₁ _ (by simp)).1]
      rfl
  · rw [(f₄ _ (by simp)).1, (f₃ _ (by simp)).1, (f₂ _ (by simp)).1, hproxy]
  · have hout : ∀ ps : List Path, (∀ p ∈ ps, p ≠ .binary ∧ p ≠ .cli) → t.destination ∉ ps := by
      intro ps hps hmem
      cases t <;> simpa [Tool.destination] using hps _ hmem
    rw [(f₄ _ (hout _ (by simp))).1, (f₃ _ (hout _ (by simp))).1, (f₂ _ (hout _ (by simp))).1,
      (f₁ _ (hout _ (by simp))).1]

/-- The node's binaries after a change of version or URL. -/
def NodeBinaries (lib : Library) (config : Config) (changed : Finset Key) (h h' : Host) : Prop :=
  if (releaseKeys ∩ changed).Nonempty ∧ (config .version).orEmpty ≠ [] then
    ∃ r : VerifiedRelease lib (config .version).orEmpty (config .binaryUrl).orEmpty, Installed r h'
  else ∀ t : Tool, h'.files t.destination = h.files t.destination

theorem installBitcoin_spec (lib : Library) {version : Str} (hv : version ≠ []) (config : Config)
    (binaryUrl : Str) (w : World) :
    wp env (installBitcoin lib version config binaryUrl)
      (fun _ w' => ∃ r : VerifiedRelease lib version binaryUrl, Installed r w'.host)
      (fun _ _ => True) w := by
  rw [installBitcoin, wp_bind]
  refine wp_mono (installRelease_spec lib hv binaryUrl config w) (fun _ w₁ h₁ => ?_)
    fun _ _ _ => trivial
  rw [wp_runIf, if_pos (by simpa using hv)]
  exact wp_perform (fun _ _ => trivial) fun _ => h₁.1

theorem installBitcoin_empty (lib : Library) (config : Config) (binaryUrl : Str) (w : World) :
    installBitcoin lib [] config binaryUrl env w = .ok () w := rfl

theorem activateNode_spec (lib : Library) (config : Config) (changed : Finset Key)
    (snapshot : Snapshot) (a : Affected) (w : World) :
    wp env (activateNode lib config changed snapshot a)
      (fun _ w' => NodeBinaries lib config changed w.host w'.host) (fun _ _ => True) w := by
  unfold NodeBinaries
  rw [activateNode, wp_ite]
  by_cases hc : (releaseKeys ∩ changed).Nonempty
  · rw [if_pos hc]
    by_cases hv : (config .version).orEmpty = []
    · rw [hv, wp, installBitcoin_empty]
      simp
    · simp only [hc, ne_eq, hv, not_false_eq_true, and_self, if_true]
      exact installBitcoin_spec lib hv config _ w
  · rw [if_neg hc]
    simp only [hc, false_and, if_false]
    have frame : Stays env (SameOutside fun _ => False)
        (runIf (a.node && snapshot.running .node) do
          restartService
          let version ← waitForRunningVersion config
          require version.isSome
            "Bitcoin Core did not become RPC-ready after config change".toList) :=
      .runIf fun _ => ((respects_sameOutside _).systemctl trivial _).bind fun _ =>
        ((respects_sameOutside _).waitForRunningVersion config).bind fun _ => Respects.require _ _
    exact wp_mono (frame w) (fun _ w' h t => (h _ id).1) fun _ _ _ => trivial

/-- Scratch files and the node's binaries. -/
def Swappable (p : Path) : Prop := p.isScratch ∨ ∃ t : Tool, p = t.destination

theorem activateNode_frame (lib : Library) (config : Config) (changed : Finset Key)
    (snapshot : Snapshot) (a : Affected) :
    Stays env (SameOutside Swappable) (activateNode lib config changed snapshot a) :=
  (respects_sameOutside Swappable).activateNode
    ⟨fun _ => .inl rfl, fun t => .inr ⟨t, rfl⟩, trivial, fun _ _ => trivial⟩ lib config changed
    snapshot a

/-- What a transaction that returns has done to the files of the services. -/
structure Generation (lib : Library) (config : Config) (changed : Finset Key) (h h' : Host) :
    Prop where
  envs : ∀ s, h'.files (.env s) = envAfter config (affected changed) s (h.files (.env s))
  proxyBinary : h'.files .rpcProxyBinary =
    proxyBinaryAfter lib config changed (h.files .rpcProxyBinary)
  nodeBinaries : NodeBinaries lib config changed h h'

theorem applyGeneration_spec (lib : Library) (config : Config) (changed : Finset Key)
    (snapshot : Snapshot) (w : World) :
    wp env (applyGeneration lib config changed snapshot)
      (fun _ w' => Generation lib config changed w.host w'.host) (fun _ _ => True) w := by
  have hR := respects_sameOutside fun _ => False
  simp only [applyGeneration, activateConfigGeneration, wp_bind]
  refine wp_mono (writeConfigGeneration_spec lib config changed _ w) (fun _ w₁ h₁ => ?_)
    fun _ _ _ => trivial
  refine wp_mono (wp_and (activateNode_frame lib config changed snapshot _ w₁)
    (activateNode_spec lib config changed snapshot _ w₁)) (fun _ w₂ h₂ => ?_) fun _ _ _ => trivial
  refine wp_mono (hR.activateMonitor trivial snapshot _ w₂) (fun _ w₃ hm => ?_) fun _ _ _ => trivial
  refine wp_mono (hR.activateRpcProxy trivial snapshot _ w₃) (fun _ w₄ hp => ?_) fun _ _ _ => trivial
  refine wp_mono (hR.checkNode trivial snapshot w₄) (fun _ w₅ hn => ?_) fun _ _ _ => trivial
  have h₃ : SameOutside (fun _ => False) w₂ w₅ := trans_of _ (trans_of _ hm hp) hn
  have hout : ∀ p, ¬ Swappable p → w₅.host.files p = w₁.host.files p := fun p hp =>
    (h₃ p id).1.trans (h₂.1 p hp).1
  have henv : ∀ s, ¬ Swappable (.env s) := by
    rintro s (h | ⟨t, h⟩)
    · simp [Path.isScratch] at h
    · cases t <;> simp [Tool.destination] at h
  have hproxy : ¬ Swappable .rpcProxyBinary := by
    rintro (h | ⟨t, h⟩)
    · simp [Path.isScratch] at h
    · cases t <;> simp [Tool.destination] at h
  refine ⟨fun s => ?_, ?_, ?_⟩
  · rw [hout _ (henv s), h₁.envs s]
  · rw [hout _ hproxy, h₁.proxyBinary]
  · have hnode := h₂.2
    unfold NodeBinaries at hnode ⊢
    split at hnode
    · rename_i hc
      obtain ⟨r, hr⟩ := hnode
      rw [if_pos hc]
      exact ⟨r, fun t => (h₃ _ id).1.trans (hr t)⟩
    · rename_i hc
      rw [if_neg hc]
      exact fun t => (h₃ _ id).1.trans ((hnode t).trans (h₁.binaries t))

theorem generation_unchanged (lib : Library) (config : Config) (h : Host) :
    Generation lib config ∅ h h := by
  refine ⟨fun s => ?_, rfl, ?_⟩
  · cases s <;> rfl
  · rw [NodeBinaries, if_neg (by simp)]
    exact fun _ => rfl

theorem applyConfigTransaction_files (lib : Library) (config previous : Config)
    (changed : Finset Key) (w : World) :
    wp env (applyConfigTransaction lib config previous changed)
      (fun _ w' => Generation lib config changed w.host w'.host) (fun _ _ => True) w := by
  have capture : Stays env (SameOutside fun _ => False) captureConfigTransaction :=
    (respects_sameOutside _).captureConfigTransaction fun _ => trivial
  rw [applyConfigTransaction, wp_runIf]
  split
  swap
  · rename_i hempty
    rw [not_ne_iff.1 hempty]
    exact generation_unchanged lib config w.host
  simp only [wp_bind, wp_tryCatch, wp_throw]
  refine wp_mono (capture w) (fun snapshot w₁ h₁ => ?_) fun _ _ _ => trivial
  have hfiles : w₁.host.files = w.host.files := funext fun p => (h₁ p id).1
  refine wp_mono (applyGeneration_spec lib config changed snapshot w₁) (fun _ w' h => ?_)
    fun exc w₂ _ => wp_trivial _ w₂
  obtain ⟨henvs, hproxy, hnode⟩ := h
  unfold NodeBinaries at hnode
  rw [hfiles] at henvs hproxy hnode
  exact ⟨henvs, hproxy, hnode⟩

theorem mem_changedKeys {p n : Config} {k : Key} (hk : k ∈ trackedConfig) (hne : p k ≠ n k) :
    k ∈ changedKeys p n := by
  rw [changedKeys, Finset.mem_filter, List.mem_toFinset]
  exact ⟨hk, hne⟩

/-- The key sets of `_write_config_generation` cover what each rendering reads. -/
theorem inputs_eq_of_not_rewritten {p n : Config} {s : Service}
    (h : Affected.rewrites (affected (changedKeys p n)) s = false) :
    ∀ k ∈ envInputs s, p k = n k := by
  intro k hk
  by_contra hne
  have htracked : ∀ s, ∀ k ∈ envInputs s, k ∈ trackedConfig := by
    intro s
    cases s <;> decide
  have hchanged := mem_changedKeys (htracked s k hk) hne
  have meets : ∀ ks : Finset Key, k ∈ ks → (ks ∩ changedKeys p n).Nonempty := fun ks hks =>
    ⟨k, Finset.mem_inter.2 ⟨hks, hchanged⟩⟩
  cases s with
  | node =>
    have hnode : (affected (changedKeys p n)).node = true := decide_eq_true (meets _ (by
      revert hk
      cases k <;> decide))
    simp [Affected.rewrites, hnode] at h
  | monitor =>
    have hcred : (affected (changedKeys p n)).credentials = true := decide_eq_true (meets _ hk)
    simp [Affected.rewrites, hcred] at h
  | rpcProxy =>
    have hproxy : (affected (changedKeys p n)).proxy = true := by
      by_cases hcred : k ∈ ({.rpcUser, .rpcPassword} : Finset Key)
      · exact Bool.or_eq_true_iff.2 (.inl (decide_eq_true (meets _ hcred)))
      · refine Bool.or_eq_true_iff.2 (.inr (decide_eq_true (meets _ ?_)))
        revert hk hcred
        cases k <;> decide
    simp [Affected.rewrites, hproxy] at h

theorem release_eq_of_not_changed {p n : Config}
    (h : ¬ (releaseKeys ∩ changedKeys p n).Nonempty) :
    p .version = n .version ∧ p .binaryUrl = n .binaryUrl := by
  have same : ∀ k ∈ releaseKeys, p k = n k := by
    intro k hk
    by_contra hne
    refine h ⟨k, Finset.mem_inter.2 ⟨hk, mem_changedKeys ?_ hne⟩⟩
    revert hk
    cases k <;> decide
  exact ⟨same _ (by decide), same _ (by decide)⟩

/-- Environment files, node binaries and proxy binary are those of `config`. -/
structure HoldsGeneration (lib : Library) (config : Config) (h : Host) : Prop where
  envs : ∀ s, (h.files (.env s)).map (·.data) = some (utf8 (renderEnv config s))
  node : (config .version).orEmpty ≠ [] →
    ∃ r : VerifiedRelease lib (config .version).orEmpty (config .binaryUrl).orEmpty,
      ∀ t : Tool, (h.files t.destination).map (·.data) = some (r.checked.content t)
  proxy : (config .rpcProxyVersion).orEmpty ≠ [] → (h.files .rpcProxyBinary).map (·.data) =
    some (lib.web (rpcProxyUrl (config .rpcProxyVersion).orEmpty)).content

/-- What neither configuration tells apart is not altered. -/
structure UnalteredParts (p n : Config) (h h' : Host) : Prop where
  envs : ∀ s, (∀ k ∈ envInputs s, p k = n k) → h'.files (.env s) = h.files (.env s)
  node : p .version = n .version → p .binaryUrl = n .binaryUrl →
    ∀ t : Tool, h'.files t.destination = h.files t.destination
  proxy : p .rpcProxyVersion = n .rpcProxyVersion →
    h'.files .rpcProxyBinary = h.files .rpcProxyBinary

theorem Generation.unaltered {lib : Library} {p n : Config} {h h' : Host}
    (hold : HoldsGeneration lib p h) (hg : Generation lib n (changedKeys p n) h h') :
    UnalteredParts p n h h' := by
  refine ⟨fun s hsame => ?_, fun hversion hurl t => ?_, fun hversion => ?_⟩
  · rw [hg.envs s, envAfter]
    split
    · obtain ⟨f, hf, hdata⟩ := Option.map_eq_some_iff.1 (hold.envs s)
      rw [hf, ← renderEnv_congr s hsame, ← hdata, overwritten_self]
    · rfl
  · have hkeys : ¬ (releaseKeys ∩ changedKeys p n).Nonempty := by
      rintro ⟨k, hk⟩
      obtain ⟨hk, hc⟩ := Finset.mem_inter.1 hk
      have hne := (Finset.mem_filter.1 hc).2
      simp only [releaseKeys, Finset.mem_insert, Finset.mem_singleton] at hk
      rcases hk with rfl | rfl
      · exact hne hversion
      · exact hne hurl
    have hnode := hg.nodeBinaries
    rw [NodeBinaries, if_neg fun hc => hkeys hc.1] at hnode
    exact hnode t
  · rw [hg.proxyBinary, proxyBinaryAfter, if_neg]
    rintro ⟨hc, -⟩
    exact (Finset.mem_filter.1 hc).2 hversion

theorem Generation.holds_envs {lib : Library} {p n : Config} {h h' : Host}
    (hold : ∀ s, (h.files (.env s)).map (·.data) = some (utf8 (renderEnv p s)))
    (hg : Generation lib n (changedKeys p n) h h') (s : Service) :
    (h'.files (.env s)).map (·.data) = some (utf8 (renderEnv n s)) := by
  rw [hg.envs s, envAfter]
  split
  · rfl
  · rename_i hrewritten
    rw [hold s, renderEnv_congr s (inputs_eq_of_not_rewritten (by simpa using hrewritten))]

theorem Generation.holds {lib : Library} {p n : Config} {h h' : Host}
    (hold : HoldsGeneration lib p h) (hg : Generation lib n (changedKeys p n) h h') :
    HoldsGeneration lib n h' := by
  refine ⟨hg.holds_envs hold.envs, fun hv => ?_, fun hv => ?_⟩
  · have hnode := hg.nodeBinaries
    by_cases hc : (releaseKeys ∩ changedKeys p n).Nonempty
    · rw [NodeBinaries, if_pos ⟨hc, hv⟩] at hnode
      obtain ⟨r, hr⟩ := hnode
      exact ⟨r, fun t => by rw [hr t]; rfl⟩
    · rw [NodeBinaries, if_neg fun hboth => hc hboth.1] at hnode
      obtain ⟨hversion, hurl⟩ := release_eq_of_not_changed hc
      obtain ⟨r, hr⟩ := hold.node (hversion ▸ hv)
      rw [← hversion, ← hurl]
      exact ⟨r, fun t => by rw [hnode t, hr t]⟩
  · rw [hg.proxyBinary, proxyBinaryAfter]
    by_cases hc : p .rpcProxyVersion = n .rpcProxyVersion
    · rw [if_neg, ← hc]
      · exact hold.proxy (hc ▸ hv)
      · rintro ⟨hmem, -⟩
        exact (Finset.mem_filter.1 hmem).2 hc
    · rw [if_pos ⟨mem_changedKeys (by decide) hc, hv⟩]
      rfl

/-- A transaction that returns leaves exactly the new generation, and does not alter
what both generations share. -/
theorem applyConfigTransaction_yields_generation (lib : Library) (p n : Config) {w w' : World}
    (hold : HoldsGeneration lib p w.host)
    (hres : applyConfigTransaction lib n p (changedKeys p n) env w = .ok () w') :
    HoldsGeneration lib n w'.host ∧ UnalteredParts p n w.host w'.host := by
  have hg := wp_of_ok (applyConfigTransaction_files lib n p (changedKeys p n) w) hres
  exact ⟨hg.holds hold, hg.unaltered hold⟩

def noOptions : Config := fun _ => .none

def onlyUser : Config := Function.update noOptions .rpcUser (.str "alice".toList)

/-- The three environment files of an unconfigured charm, and nothing running. -/
def unconfigured : World :=
  ⟨[], { files := fun p => match p with
           | .env s => some ⟨utf8 (renderEnv noOptions s), 0o644⟩
           | _ => none
         running := fun _ => false }⟩

theorem applyConfigTransaction_yields_generation_onlyUser : ∃ w',
    applyConfigTransaction emptyMirror onlyUser noOptions (changedKeys noOptions onlyUser) calm
      unconfigured = .ok () w' ∧
    HoldsGeneration emptyMirror onlyUser w'.host ∧
    UnalteredParts noOptions onlyUser unconfigured.host w'.host := by
  have hrun : returnsNormally (applyConfigTransaction emptyMirror onlyUser noOptions
    (changedKeys noOptions onlyUser) calm unconfigured) = true := by decide +kernel
  obtain ⟨⟨⟩, w', hres⟩ := exists_of_returnsNormally hrun
  have hold : HoldsGeneration emptyMirror noOptions unconfigured.host :=
    ⟨fun _ => rfl, fun h => absurd rfl h, fun h => absurd rfl h⟩
  exact ⟨w', hres, applyConfigTransaction_yields_generation emptyMirror noOptions onlyUser hold hres⟩

end BitcoinRpcOperator.GenerationFiles
