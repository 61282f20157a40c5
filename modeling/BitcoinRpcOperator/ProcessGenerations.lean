import BitcoinRpcOperator.ServicePreservation
import BitcoinRpcOperator.GenerationFiles

/-!
# Processes and the generation they were started on

Writes and starts are dated by the number of operations asked so far. A service is
renewed when it was started after the last write to its files; each restart of the
second phase renews its service, and nothing after it writes those files again.
-/

namespace BitcoinRpcOperator.ProcessGenerations
open Text ServiceConfiguration FallibleProcedures HostSystem ReleaseInstaller ConfigTransaction
open HostSteps HostFrames ReleaseAtomicity TransactionAtomicity ServicePreservation GenerationFiles

variable {env : Environment} {w : World}

/-- No recorded time lies in the future. -/
structure Clocked (w : World) : Prop where
  written : ∀ p, w.host.written p ≤ w.history.length
  started : ∀ s, (w.host.process s).startedAt ≤ w.history.length

/-- Time passes, and records stay in the past. -/
structure Ticks (w w' : World) : Prop where
  le : w.history.length ≤ w'.history.length
  clocked : Clocked w → Clocked w'

instance : Std.Refl Ticks := ⟨fun _ => ⟨le_refl _, id⟩⟩

instance : IsTrans World Ticks :=
  ⟨fun _ _ _ h h' => ⟨h.le.trans h'.le, fun hc => h'.clocked (h.clocked hc)⟩⟩

theorem startUnit_process_self {h : Host} {s : Service} (hdown : h.running s = false) (t : ℕ) :
    (h.startUnit s t).process s = ⟨t, h.files (.env s)⟩ := by
  simp [Host.startUnit, hdown]

theorem startUnit_process_ne (h : Host) {s s' : Service} (hne : s' ≠ s) (t : ℕ) :
    (h.startUnit s t).process s' = h.process s' := by
  unfold Host.startUnit
  split
  · rfl
  · exact Function.update_of_ne hne _ _

theorem startUnit_process_running {h : Host} {s : Service} (hup : h.running s = true) (t : ℕ) :
    h.startUnit s t = h := by
  simp [Host.startUnit, hup]

/-- A process is the old one, or one started now. -/
theorem startUnit_process_cases (h : Host) (s s' : Service) (t : ℕ) :
    (h.startUnit s t).process s' = h.process s' ∨
      ((h.startUnit s t).process s').startedAt = t := by
  by_cases hne : s' = s
  · subst hne
    cases hr : h.running s' with
    | true => exact .inl (by rw [startUnit_process_running hr])
    | false => exact .inr (by rw [startUnit_process_self hr])
  · exact .inl (startUnit_process_ne h hne t)

theorem systemctl_startedAt_le {h : Host} {t : ℕ} (hle : ∀ s, (h.process s).startedAt ≤ t)
    (v : Verb) (s s' : Service) : ((h.systemctl v s t).process s').startedAt ≤ t := by
  have start : ∀ (h : Host), (∀ s, (h.process s).startedAt ≤ t) → ∀ s s',
      ((h.startUnit s t).process s').startedAt ≤ t := by
    intro h hle s s'
    rcases startUnit_process_cases h s s' t with heq | heq
    · rw [heq]
      exact hle s'
    · rw [heq]
  have wanted : ∀ s', (((Host.wants s).foldl (fun h u => h.startUnit u t) h).process s').startedAt
      ≤ t := by
    cases s with
    | rpcProxy => exact start h hle .node
    | node | monitor => exact hle
  cases v with
  | stop => exact hle s'
  | start => exact start _ wanted s s'
  | restart => exact start (Host.stopUnit _ s) wanted s s'

theorem respects_ticks : Respects Ticks ⟨fun _ => True, fun _ => True, fun _ => True⟩ where
  asked := fun w o _ => by
    refine ⟨Nat.le_succ _, fun hc => ⟨fun p => ?_, fun s => ?_⟩⟩
    · exact (hc.written p).trans (Nat.le_succ _)
    · exact (hc.started s).trans (Nat.le_succ _)
  filed := fun w p f _ => by
    refine ⟨le_refl _, fun hc => ⟨fun q => ?_, hc.started⟩⟩
    by_cases hq : q = p
    · simp [Host.setFile, hq]
    · simpa [Host.setFile, Function.update_of_ne hq] using hc.written q
  cleared := fun _ _ => ⟨le_refl _, fun hc => ⟨hc.written, hc.started⟩⟩
  polled := fun _ _ _ => ⟨le_refl _, fun hc => ⟨hc.written, hc.started⟩⟩
  disturbed := fun _ _ _ _ => ⟨le_refl _, fun hc => ⟨hc.written, hc.started⟩⟩
  commanded := fun s _ w v => by
    refine ⟨le_refl _, fun hc => ⟨fun p => ?_, systemctl_startedAt_le hc.started v s⟩⟩
    obtain ⟨r, st, heq⟩ := systemctl_eq w.host v s w.history.length
    rw [heq]
    exact hc.written p
  noted := fun _ _ _ _ => ⟨le_refl _, fun hc => ⟨hc.written, hc.started⟩⟩

def serviceFiles : Service → List Path
  | .node => [.env .node, .binary, .cli]
  | .monitor => [.env .monitor, .monitorScript]
  | .rpcProxy => [.env .rpcProxy, .rpcProxyBinary]

/-- `s` was started since `w`, after the last write to its files, on its environment. -/
structure Renewed (s : Service) (w w' : World) : Prop where
  since : w.history.length < (w'.host.process s).startedAt
  files : ∀ p ∈ serviceFiles s, w'.host.written p < (w'.host.process s).startedAt
  environment : (w'.host.process s).environment = w'.host.files (.env s)

/-- Later steps that neither act on `s` nor write its files keep it renewed. -/
theorem Renewed.mono {s : Service} {w w' w'' : World} (h : Renewed s w w')
    (hp : w''.host.process s = w'.host.process s)
    (hf : ∀ p ∈ serviceFiles s, w''.host.files p = w'.host.files p ∧
      w''.host.written p = w'.host.written p) : Renewed s w w'' := by
  refine ⟨hp ▸ h.since, fun p hmem => ?_, ?_⟩
  · rw [hp, (hf p hmem).2]
    exact h.files p hmem
  · rw [hp, h.environment, (hf _ (by cases s <;> simp [serviceFiles])).1]

theorem Renewed.earlier {s : Service} {w₀ w w' : World} (h : Renewed s w w')
    (hle : w₀.history.length ≤ w.history.length) : Renewed s w₀ w' :=
  ⟨lt_of_le_of_lt hle h.since, h.files, h.environment⟩

/-- A process started now, over files written before. -/
theorem renewed_of_started {s : Service} {w : World} {h : Host} {hist : List Op} (hc : Clocked w)
    (hf : h.files = w.host.files) (hw : h.written = w.host.written)
    (hp : h.process s = ⟨w.history.length + 1, w.host.files (.env s)⟩) :
    Renewed s w ⟨hist, h⟩ := by
  refine ⟨by rw [hp]; exact Nat.lt_succ_self _, fun p _ => ?_, by rw [hp, hf]⟩
  rw [hp, hw]
  exact Nat.lt_succ_of_le (hc.written p)

@[simp] theorem systemctl_written (h : Host) (v : Verb) (s : Service) (t : ℕ) :
    (h.systemctl v s t).written = h.written := by
  obtain ⟨r, st, heq⟩ := systemctl_eq h v s t
  rw [heq]

@[simp] theorem systemctl_answered (h : Host) (v : Verb) (s : Service) (t : ℕ) :
    (h.systemctl v s t).answered = h.answered := by
  obtain ⟨r, st, heq⟩ := systemctl_eq h v s t
  rw [heq]

theorem restart_process_self (h : Host) (s : Service) (t : ℕ) :
    (h.systemctl .restart s t).process s = ⟨t, h.files (.env s)⟩ := by
  have wanted : ((Host.wants s).foldl (fun h u => h.startUnit u t) h).files = h.files := by
    cases s with
    | rpcProxy =>
      obtain ⟨r, st, heq⟩ := startUnit_eq h .node t
      simp [Host.wants, heq]
    | node | monitor => rfl
  rw [Host.systemctl, startUnit_process_self (by simp [Host.stopUnit])]
  simp [Host.stopUnit, wanted]

/-- What the polling loop leaves behind: nothing, or when and how it was answered. -/
theorem pollVersion_spec (user password : Str) (n : ℕ) (w : World) :
    wp env (pollVersion user password n)
      (fun r w' => (r = none ∧ w'.host = w.host) ∨ (r.isSome ∧ ∃ t, w.history.length < t ∧
        w'.host = { w.host with answered := some (t, user, password) }))
      (fun _ _ => True) w := by
  induction n generalizing w with
  | zero => exact .inl ⟨rfl, rfl⟩
  | succ n ih =>
    have again : wp env (pollVersion user password n)
        (fun r w' => (r = none ∧ w'.host = w.host) ∨ (r.isSome ∧ ∃ t, w.history.length < t ∧
          w'.host = { w.host with answered := some (t, user, password) }))
        (fun _ _ => True) ⟨.rpcPost user password :: w.history, w.host⟩ := by
      refine wp_mono (ih _) (fun r w' h => h.imp id ?_) fun _ _ _ => trivial
      rintro ⟨hsome, t, ht, hhost⟩
      exact ⟨hsome, t, lt_trans (Nat.lt_succ_self _) ht, hhost⟩
    rw [pollVersion, wp_bind]
    refine wp_observe (fun _ _ => trivial) fun _ => ?_
    cases (env w.history (.rpcPost user password)).reply with
    | unavailable => exact again
    | subversion text =>
      simp only
      cases Backtracking.search subversionPattern text with
      | none => exact again
      | some m =>
        refine .inr ⟨rfl, w.history.length + 1, Nat.lt_succ_self _, rfl⟩

/-- The node was renewed since `w` and then answered under `config`. -/
structure NodeRenewed (config : Config) (w w' : World) : Prop extends Renewed .node w w' where
  answered : ∃ t, (w'.host.process .node).startedAt < t ∧ w'.host.answered =
    some (t, (config .rpcUser).orEmpty, (config .rpcPassword).orEmpty)

theorem NodeRenewed.mono {config : Config} {w w' w'' : World} (h : NodeRenewed config w w')
    (hp : w''.host.process .node = w'.host.process .node)
    (hf : ∀ p ∈ serviceFiles .node, w''.host.files p = w'.host.files p ∧
      w''.host.written p = w'.host.written p)
    (ha : w''.host.answered = w'.host.answered) : NodeRenewed config w w'' := by
  refine ⟨h.toRenewed.mono hp hf, ?_⟩
  rw [hp, ha]
  exact h.answered

theorem NodeRenewed.earlier {config : Config} {w₀ w w' : World} (h : NodeRenewed config w w')
    (hle : w₀.history.length ≤ w.history.length) : NodeRenewed config w₀ w' :=
  ⟨h.toRenewed.earlier hle, h.answered⟩

/-- Waiting for a version, right after the node was started at `w`. -/
theorem waitForRunningVersion_renews {config : Config} {w w₁ : World} (hc : Clocked w)
    (hist : w₁.history.length = w.history.length + 1) (hf : w₁.host.files = w.host.files)
    (hw : w₁.host.written = w.host.written)
    (hp : w₁.host.process .node = ⟨w.history.length + 1, w.host.files (.env .node)⟩) :
    wp env (waitForRunningVersion config) (fun r w' => r.isSome → NodeRenewed config w w')
      (fun _ _ => True) w₁ := by
  refine wp_mono (pollVersion_spec _ _ _ w₁) (fun r w' h hsome => ?_) fun _ _ _ => trivial
  rcases h with ⟨rfl, -⟩ | ⟨-, t, ht, hhost⟩
  · simp at hsome
  · obtain ⟨hist', host'⟩ := w'
    subst hhost
    refine ⟨renewed_of_started hc hf hw hp, t, ?_, rfl⟩
    simpa only [hp, hist] using ht

theorem startReplacement_renews (lib : Library) (version : Str) (config : Config) (hc : Clocked w)
    (hdown : w.host.running .node = false) :
    wp env (startReplacement lib version true (nodeControl config))
      (fun _ w' => NodeRenewed config w w') (fun _ _ => True) w := by
  rw [startReplacement, wp_runIf, if_pos rfl]
  simp only [verifyRunningVersion, wp_bind]
  refine wp_systemctl (fun _ _ _ => trivial) ?_
  refine wp_mono (waitForRunningVersion_renews hc rfl (systemctl_files _ _ _ _)
    (systemctl_written _ _ _ _) (startUnit_process_self hdown _)) (fun r w' h => ?_)
    fun _ _ _ => trivial
  cases r with
  | none => trivial
  | some running =>
    simp only [wp_bind]
    refine wp_raiseExcept (fun _ _ => trivial) fun _ _ => wp_raiseExcept (fun _ _ => trivial) fun _ _ => ?_
    rw [wp_runIf]
    split
    · trivial
    · exact h rfl

theorem swapAndStart_renews (lib : Library) (version : Str) (config : Config) (hc : Clocked w)
    (hdown : w.host.running .node = false) :
    wp env (swapAndStart lib version true (nodeControl config))
      (fun _ w' => NodeRenewed config w w') (fun _ _ => True) w := by
  have quiet : Stays env Undisturbed (swapBinaries Tool.all []) :=
    respects_undisturbed.swapBinaries (fun _ => trivial) (fun _ => trivial) _ _
  have ticks : Stays env Ticks (swapBinaries Tool.all []) :=
    respects_ticks.swapBinaries (fun _ => trivial) (fun _ => trivial) _ _
  rw [swapAndStart, wp_bind]
  refine wp_mono (wp_and (quiet w) (ticks w)) (fun r w₁ h₁ => ?_) fun _ _ _ => trivial
  obtain ⟨backups, failed⟩ := r
  cases failed with
  | some exc =>
    simp only [wp_bind, wp_throw]
    exact wp_trivial _ w₁
  | none =>
    simp only [wp_tryCatch, wp_bind, wp_throw]
    refine wp_mono (startReplacement_renews lib version config (h₁.2.clocked hc)
      (by rw [h₁.1.running, hdown])) (fun _ w' h => h.earlier h₁.2.le) fun _ w' _ => ?_
    exact wp_trivial _ w'

theorem activate_renews (hs : Steady env) (lib : Library) (version : Str) (config : Config) (hc : Clocked w)
    (hup : w.host.running .node = true) :
    wp env (activate lib version (nodeControl config))
      (fun _ w' => NodeRenewed config w w') (fun _ _ => True) w := by
  have hP : (⟨fun _ => True, fun _ => True, fun _ => True⟩ : Permit).Releases :=
    ⟨fun _ => trivial, fun _ => trivial, trivial, fun _ _ => trivial⟩
  have ticks : Stays env Ticks (stopForActivation (nodeControl config)) :=
    respects_ticks.stopForActivation hP config
  rw [activate, wp_bind]
  refine wp_getStatus_steady hs (fun _ _ => trivial) ?_
  rw [hup, wp_bind, wp_runIf, if_pos rfl]
  have hasked : Ticks w ⟨.status .node :: w.history, w.host⟩ := respects_ticks.asked w _ (.inr ⟨.node, trivial⟩)
  refine wp_mono (wp_and (stopForActivation_spec config _) (ticks _)) (fun _ w₁ h₁ => ?_)
    fun _ _ _ => trivial
  have hticks : Ticks w w₁ := trans_of Ticks hasked h₁.2
  refine wp_mono (swapAndStart_renews lib version config (hticks.clocked hc) ?_)
    (fun _ w' h => h.earlier hticks.le) fun _ _ _ => trivial
  rw [h₁.1.2]
  simp

/-- Up to the activation only time passes: units and processes are left alone. -/
structure Leading (w w' : World) : Prop where
  running : w'.host.running = w.host.running
  process : w'.host.process = w.host.process
  ticks : Ticks w w'

instance : Std.Refl Leading := ⟨fun w => ⟨rfl, rfl, refl_of Ticks w⟩⟩

instance : IsTrans World Leading :=
  ⟨fun _ _ _ h h' => ⟨h'.running.trans h.running, h'.process.trans h.process,
    trans_of Ticks h.ticks h'.ticks⟩⟩

theorem respects_leading : Respects Leading ⟨fun _ => True, fun _ => False, fun _ => False⟩ where
  asked := fun w o _ => ⟨rfl, rfl, respects_ticks.asked w o (.inr ⟨.node, trivial⟩)⟩
  filed := fun w p f _ => ⟨rfl, rfl, respects_ticks.filed w p f trivial⟩
  cleared := fun _ w => ⟨rfl, rfl, respects_ticks.cleared (fun _ => trivial) w⟩
  polled := fun w u p => ⟨rfl, rfl, respects_ticks.polled w u p⟩
  disturbed := fun _ => False.elim
  commanded := fun _ => False.elim
  noted := fun _ _ _ => False.elim

theorem installRelease_renews (hs : Steady env) (lib : Library) {version : Str}
    (hv : version ≠ []) (binaryUrl : Str) (config : Config) (hc : Clocked w)
    (hup : w.host.running .node = true) :
    wp env (installRelease lib version binaryUrl (nodeControl config))
      (fun _ w' => NodeRenewed config w w') (fun _ _ => True) w := by
  have hR := respects_leading
  have hst : ∀ n : Str, (fun _ : Path => True) (.stage n) := fun _ => trivial
  have staged : ∀ filename archive (w₁ : World), Leading w w₁ →
      wp env (stageAndActivate lib version filename archive (nodeControl config))
        (fun _ w' => NodeRenewed config w w') (fun _ _ => True) w₁ := by
    intro filename archive w₁ h₁
    simp only [stageAndActivate, wp_bind]
    refine wp_mono (hR.writeArchive hst filename archive w₁) (fun _ w₂ h₂ => ?_) fun _ _ _ => trivial
    refine wp_mono (hR.extractBinaries hst lib archive version w₂) (fun _ w₃ h₃ => ?_)
      fun _ _ _ => trivial
    refine wp_mono (hR.validateVersion lib _ version w₃) (fun _ w₄ h₄ => ?_) fun _ _ _ => trivial
    refine wp_mono (hR.validateVersion lib _ version w₄) (fun _ w₅ h₅ => ?_) fun _ _ _ => trivial
    have h : Leading w w₅ := trans_of _ h₁ (trans_of _ h₂ (trans_of _ h₃ (trans_of _ h₄ h₅)))
    refine wp_mono (activate_renews hs lib version config (h.ticks.clocked hc) ?_)
      (fun _ w' h' => h'.earlier h.ticks.le) fun _ _ _ => trivial
    rw [h.running, hup]
  rw [installRelease, wp_runIf, if_pos (by simpa using hv)]
  simp only [wp_bind]
  refine wp_raiseExcept (fun _ _ => trivial) fun urls _ => ?_
  refine wp_mono (hR.fetch lib urls.1 w) (fun release w₁ h₁ => ?_) fun _ _ _ => trivial
  refine wp_mono (hR.fetch lib urls.2 w₁) (fun sums w₂ h₂ => ?_) fun _ _ _ => trivial
  refine wp_raiseExcept (fun _ _ => trivial) fun expected _ => ?_
  rw [wp_runIf]
  split
  · trivial
  refine wp_mono (hR.mkdirParents .binary w₂) (fun _ w₃ h₃ => ?_) fun _ _ _ => trivial
  have h : Leading w w₃ := trans_of _ h₁ (trans_of _ h₂ h₃)
  refine wp_withStage (fun _ _ _ => trivial) (fun _ _ => trivial) ?_
  have hmade : Leading w₃ ⟨.makeStage :: w₃.history, w₃.host.clearStage⟩ :=
    trans_of _ (hR.asked w₃ .makeStage (.inl rfl)) (hR.cleared hst _)
  refine wp_mono (staged _ _ _ (trans_of _ h hmade)) (fun _ w' h' => ?_) fun _ _ _ => trivial
  refine h'.mono rfl (fun p hp => ⟨?_, rfl⟩) rfl
  simp only [serviceFiles, List.mem_cons, List.not_mem_nil, or_false] at hp
  rcases hp with rfl | rfl | rfl <;> rfl

theorem installBitcoin_renews (hs : Steady env) (lib : Library) {version : Str}
    (hv : version ≠ []) (binaryUrl : Str) (config : Config) (hc : Clocked w)
    (hup : w.host.running .node = true) :
    wp env (installBitcoin lib version config binaryUrl)
      (fun _ w' => NodeRenewed config w w') (fun _ _ => True) w := by
  rw [installBitcoin, wp_bind]
  refine wp_mono (installRelease_renews hs lib hv binaryUrl config hc hup) (fun _ w₁ h₁ => ?_)
    fun _ _ _ => trivial
  rw [wp_runIf, if_pos (by simpa using hv)]
  refine wp_perform (fun _ _ => trivial) fun _ => ?_
  exact h₁.mono rfl (fun _ _ => ⟨rfl, rfl⟩) rfl

/-- Only services of `S` get new processes. -/
def SameProcesses (S : Service → Prop) (w w' : World) : Prop :=
  ∀ s, ¬ S s → w'.host.process s = w.host.process s

instance (S : Service → Prop) : Std.Refl (SameProcesses S) := ⟨fun _ _ _ => rfl⟩

instance (S : Service → Prop) : IsTrans World (SameProcesses S) :=
  ⟨fun _ _ _ h h' s hs => (h' s hs).trans (h s hs)⟩

theorem systemctl_process_ne (h : Host) (v : Verb) {s s' : Service} (hne : s' ≠ s)
    (hw : s' ∉ Host.wants s) (t : ℕ) : (h.systemctl v s t).process s' = h.process s' := by
  have wanted : ((Host.wants s).foldl (fun h u => h.startUnit u t) h).process s' = h.process s' := by
    cases s with
    | rpcProxy => exact startUnit_process_ne h (by simpa [Host.wants] using hw) t
    | node | monitor => rfl
  cases v with
  | stop => rfl
  | start => exact (startUnit_process_ne _ hne t).trans wanted
  | restart => exact (startUnit_process_ne (Host.stopUnit _ s) hne t).trans wanted

theorem respects_sameProcesses (S : Service → Prop) : Respects (SameProcesses S)
    ⟨fun _ => True, fun s => S s ∧ ∀ u ∈ Host.wants s, S u, fun _ => True⟩ where
  asked := fun _ _ _ _ _ => rfl
  filed := fun _ _ _ _ _ _ => rfl
  cleared := fun _ _ _ _ => rfl
  polled := fun _ _ _ _ _ => rfl
  disturbed := fun _ _ _ _ _ _ => rfl
  commanded := by
    intro s hs w v s' hs'
    have hne : s' ≠ s := fun heq => hs' (heq ▸ hs.1)
    exact systemctl_process_ne w.host v hne (fun hmem => hs' (hs.2 s' hmem)) _
  noted := fun _ _ _ _ _ _ => rfl

theorem activateNode_processes (lib : Library) (config : Config) (changed : Finset Key)
    (snapshot : Snapshot) (a : Affected) :
    Stays env (SameProcesses fun s => s = .node) (activateNode lib config changed snapshot a) :=
  (respects_sameProcesses fun s => s = .node).activateNode
    ⟨fun _ => trivial, fun _ => trivial, ⟨rfl, by simp [Host.wants]⟩, fun _ _ => trivial⟩ lib config
    changed snapshot a

/-- Whether the second phase renews a running node. -/
def Renews (config : Config) (changed : Finset Key) : Prop :=
  if (releaseKeys ∩ changed).Nonempty then (config .version).orEmpty ≠ []
  else (affected changed).node = true

theorem activateNode_renews (hs : Steady env) (lib : Library) (config : Config)
    (changed : Finset Key) {snapshot : Snapshot} (hc : Clocked w)
    (hsnap : snapshot.running .node = true) (hup : w.host.running .node = true) :
    wp env (activateNode lib config changed snapshot (affected changed))
      (fun _ w' => (Renews config changed → NodeRenewed config w w') ∧
        (¬ Renews config changed → w' = w)) (fun _ _ => True) w := by
  rw [activateNode, wp_ite]
  by_cases hkeys : (releaseKeys ∩ changed).Nonempty
  · rw [if_pos hkeys, Renews, if_pos hkeys]
    by_cases hv : (config .version).orEmpty = []
    · rw [hv, wp, installBitcoin_empty]
      exact ⟨fun hne => absurd rfl hne, fun _ => rfl⟩
    · exact wp_mono (installBitcoin_renews hs lib hv _ config hc hup)
        (fun _ w' h => ⟨fun _ => h, fun hne => absurd hv hne⟩) fun _ _ _ => trivial
  · rw [if_neg hkeys, Renews, if_neg hkeys, wp_runIf, hsnap, Bool.and_true]
    cases ha : (affected changed).node with
    | false => exact ⟨fun h => absurd h (by simp), fun _ => rfl⟩
    | true =>
      simp only [↓reduceIte, wp_bind]
      refine wp_systemctl (fun _ _ _ => trivial) ?_
      have restarted := restart_process_self w.host .node (w.history.length + 1)
      refine wp_mono (waitForRunningVersion_renews hc rfl (systemctl_files _ _ _ _)
        (systemctl_written _ _ _ _) restarted) (fun r w' h => ?_) fun _ _ _ => trivial
      exact wp_require (fun _ => trivial) fun hsome => ⟨fun _ => h hsome, fun hn => (hn trivial).elim⟩

/-- A step that either leaves the host alone or restarts `s`. -/
def MayRestart (s : Service) (restarts : Bool) (w w' : World) : Prop :=
  w'.host = if restarts then w.host.systemctl .restart s (w.history.length + 1) else w.host

theorem activateMonitor_host (hs : Steady env) (snapshot : Snapshot) (a : Affected) (w : World) :
    wp env (activateMonitor snapshot a)
      (fun _ w' => MayRestart .monitor (a.credentials && snapshot.running .monitor) w w')
      (fun _ _ => True) w := by
  rw [activateMonitor, wp_runIf]
  unfold MayRestart
  split
  · simp only [wp_bind]
    refine wp_systemctl (fun _ _ _ => trivial) ?_
    refine wp_mono (serviceRunning_steady hs _ _ _) (fun _ w₁ h₁ => ?_) fun _ _ _ => trivial
    exact wp_require (fun _ => trivial) fun _ => h₁.1
  · rfl

theorem activateRpcProxy_host (hs : Steady env) (snapshot : Snapshot) (a : Affected) (w : World) :
    wp env (activateRpcProxy snapshot a)
      (fun _ w' => MayRestart .rpcProxy (a.proxy && snapshot.running .rpcProxy) w w')
      (fun _ _ => True) w := by
  rw [activateRpcProxy, wp_runIf]
  unfold MayRestart
  split
  · simp only [wp_bind, wp_fileExists]
    refine wp_require (fun _ => trivial) fun _ => wp_systemctl (fun _ _ _ => trivial) ?_
    refine wp_mono (serviceRunning_steady hs _ _ _) (fun _ w₁ h₁ => ?_) fun _ _ _ => trivial
    exact wp_require (fun _ => trivial) fun _ => h₁.1
  · rfl

theorem checkNode_host (hs : Steady env) (snapshot : Snapshot) (w : World) :
    wp env (checkNode snapshot) (fun _ w' => w'.host = w.host) (fun _ _ => True) w := by
  rw [checkNode, wp_runIf]
  split
  · rw [wp_bind]
    refine wp_mono (serviceRunning_steady hs _ _ _) (fun _ w₁ h₁ => ?_) fun _ _ _ => trivial
    exact wp_require (fun _ => trivial) fun _ => h₁.1
  · rfl

/-- What the first phase writes, given what changed. -/
def Touched (changed : Finset Key) (a : Affected) : Path → Prop
  | .rpcProxyBinary | .temporary .rpcProxyBinary => .rpcProxyVersion ∈ changed
  | .env s => Affected.rewrites a s = true
  | .monitorScript => a.credentials = true
  | .unit .rpcProxy => a.proxy = true
  | _ => False

theorem writeConfigGeneration_touches (lib : Library) (config : Config) (changed : Finset Key)
    (a : Affected) :
    Stays env (SameOutside (Touched changed a)) (writeConfigGeneration lib config changed a) := by
  have hR := respects_sameOutside (Touched changed a)
  have proxyBinary : Stays env (SameOutside (Touched changed a)) (runIf (.rpcProxyVersion ∈ changed)
      (installRpcProxy lib (config .rpcProxyVersion).orEmpty)) :=
    .runIf fun hc => hR.installRpcProxy hc hc lib _
  have node : Stays env (SameOutside (Touched changed a))
      (runIf a.node do let _ ← updateServiceArgs config false) :=
    .runIf fun hc => (hR.updateServiceArgs hc config).bind fun _ => .pure _
  have monitor : Stays env (SameOutside (Touched changed a))
      (runIf a.credentials (installBitcoindMonitor lib config false)) :=
    .runIf fun hc => hR.installBitcoindMonitor hc hc lib config
  have proxy : Stays env (SameOutside (Touched changed a))
      (runIf a.proxy (installRpcProxyService lib config false)) :=
    .runIf fun hc => hR.installRpcProxyService hc hc lib config
  exact proxyBinary.bind fun _ => node.bind fun _ => monitor.bind fun _ => proxy

theorem capture_process (w : World) :
    wp env captureConfigTransaction (fun _ w' => w'.host.process = w.host.process)
      (fun _ _ => True) w := by
  simp only [captureConfigTransaction, wp_bind]
  refine wp_mono (respects_undisturbed.captureFiles _ w) (fun _ w₁ h₁ => ?_) fun _ _ _ => trivial
  refine wp_getStatus (fun _ _ => trivial) (wp_getStatus (fun _ _ => trivial) ?_)
  exact wp_getStatus (fun _ _ => trivial) h₁.process

theorem MayRestart.files {s : Service} {b : Bool} {w w' : World} (h : MayRestart s b w w') :
    w'.host.files = w.host.files := by
  rw [h]
  split
  · exact systemctl_files _ _ _ _
  · rfl

theorem MayRestart.written {s : Service} {b : Bool} {w w' : World} (h : MayRestart s b w w') :
    w'.host.written = w.host.written := by
  rw [h]
  split
  · exact systemctl_written _ _ _ _
  · rfl

theorem MayRestart.answered {s : Service} {b : Bool} {w w' : World} (h : MayRestart s b w w') :
    w'.host.answered = w.host.answered := by
  rw [h]
  split
  · exact systemctl_answered _ _ _ _
  · rfl

theorem MayRestart.process_ne {s s' : Service} {b : Bool} {w w' : World} (h : MayRestart s b w w')
    (hne : s' ≠ s) (hw : s' ∉ Host.wants s) : w'.host.process s' = w.host.process s' := by
  rw [h]
  split
  · exact systemctl_process_ne _ _ hne hw _
  · rfl

theorem MayRestart.renewed {s : Service} {w w' : World} (h : MayRestart s true w w')
    (hc : Clocked w) : Renewed s w w' := by
  obtain ⟨hist, host⟩ := w'
  obtain rfl : host = w.host.systemctl .restart s (w.history.length + 1) := h
  exact renewed_of_started hc (systemctl_files _ _ _ _) (systemctl_written _ _ _ _)
    (restart_process_self _ _ _)

theorem restartProxy_process_node (h : Host) (t : ℕ) :
    (h.systemctl .restart .rpcProxy t).process .node = (h.startUnit .node t).process .node :=
  startUnit_process_ne (Host.stopUnit _ _) (by decide) t

/-- A restarted proxy leaves the node it wants alone. -/
theorem MayRestart.node_process {b : Bool} {w w' : World} (h : MayRestart .rpcProxy b w w')
    (hup : w.host.running .node = true) : w'.host.process .node = w.host.process .node := by
  rw [h]
  split
  · rw [restartProxy_process_node, startUnit_process_running hup]
  · rfl

/-- A node that was down is started on its environment file. -/
theorem MayRestart.node_environment {b : Bool} {w w' : World} (h : MayRestart .rpcProxy b w w')
    (hdown : w.host.running .node = false) (hup : w'.host.running .node = true) :
    (w'.host.process .node).environment = w'.host.files (.env .node) := by
  cases b with
  | true =>
    rw [h.files, show w'.host = _ from h, if_pos rfl, restartProxy_process_node,
      startUnit_process_self hdown]
  | false =>
    rw [show w'.host = w.host from h, hdown] at hup
    cases hup

/-- The worlds between the phases of a transaction that returns: the generation is
written, then the node, the monitor and the proxy are activated in turn. -/
structure Phases (config : Config) (changed : Finset Key) (w w₁ w₂ w₃ w' : World) : Prop where
  written : SameOutside (Touched changed (affected changed)) w w₁
  leading : Leading w w₁
  node : w.host.running .node = true → (Renews config changed → NodeRenewed config w₁ w₂) ∧
    (¬ Renews config changed → w₂ = w₁)
  nodeFiles : SameOutside Swappable w₁ w₂
  nodeProcesses : SameProcesses (fun s => s = .node) w₁ w₂
  nodeUnits : w₂.host.running = w₁.host.running
  nodeTicks : Ticks w₁ w₂
  monitor : MayRestart .monitor ((affected changed).credentials && w.host.running .monitor) w₂ w₃
  monitorUnits : w₃.host.running = w₂.host.running
  monitorTicks : Ticks w₂ w₃
  proxy : MayRestart .rpcProxy ((affected changed).proxy && w.host.running .rpcProxy) w₃ w'

theorem writeConfigGeneration_leading (lib : Library) (config : Config) (changed : Finset Key)
    (a : Affected) : Stays env Leading (writeConfigGeneration lib config changed a) :=
  respects_leading.writeConfigGeneration (fun _ _ => trivial) trivial lib config changed a

theorem capture_leading (hs : Steady env) (w : World) :
    wp env captureConfigTransaction
      (fun snapshot w' => snapshot.running = w.host.running ∧ Leading w w') (fun _ _ => True) w := by
  have ticks : Stays env Ticks captureConfigTransaction :=
    respects_ticks.captureConfigTransaction fun _ => trivial
  refine wp_mono (wp_and (wp_and (capture_units hs w) (capture_process w)) (ticks w))
    (fun snapshot w' h => ?_) fun _ _ _ => trivial
  obtain ⟨⟨⟨hsnap, hrun⟩, hproc⟩, hticks⟩ := h
  exact ⟨hsnap, hrun, hproc, hticks⟩

theorem applyConfigTransaction_phases (hs : Steady env) (lib : Library) (config previous : Config)
    {changed : Finset Key} (hne : changed ≠ ∅) (hc : Clocked w) :
    wp env (applyConfigTransaction lib config previous changed)
      (fun _ w' => ∃ w₁ w₂ w₃, Phases config changed w w₁ w₂ w₃ w') (fun _ _ => True) w := by
  have capture : Stays env (SameOutside fun _ => False) captureConfigTransaction :=
    (respects_sameOutside _).captureConfigTransaction fun _ => trivial
  have hP : (⟨fun _ => True, fun _ => True, fun _ => True⟩ : Permit).Releases :=
    ⟨fun _ => trivial, fun _ => trivial, trivial, fun _ _ => trivial⟩
  rw [applyConfigTransaction, wp_runIf, if_pos hne]
  simp only [applyGeneration, activateConfigGeneration, wp_bind, wp_tryCatch, wp_throw]
  refine wp_mono (wp_and (capture_leading hs w) (capture w)) (fun snapshot w₀ h₀ => ?_)
    fun _ _ _ => trivial
  obtain ⟨⟨hsnap, hlead₀⟩, hfiles₀⟩ := h₀
  have rolledBack : ∀ (e : Exc) (w₅ : World), wp env (rollbackConfigTransaction snapshot e previous)
      (fun _ _ => True) (fun _ _ => True) w₅ := fun _ w₅ => wp_trivial _ w₅
  refine wp_mono (wp_and (writeConfigGeneration_touches lib config changed _ w₀)
    (writeConfigGeneration_leading lib config changed _ w₀)) (fun _ w₁ h₁ => ?_)
    fun e w₅ _ => rolledBack e w₅
  have hlead : Leading w w₁ := trans_of Leading hlead₀ h₁.2
  have hwritten : SameOutside (Touched changed (affected changed)) w w₁ := fun p hp =>
    ⟨(h₁.1 p hp).1.trans (hfiles₀ p id).1, (h₁.1 p hp).2.trans (hfiles₀ p id).2⟩
  have hup : snapshot.running = w₁.host.running := hsnap.trans hlead.running.symm
  have hnode : wp env (activateNode lib config changed snapshot (affected changed))
      (fun _ w' => w.host.running .node = true → (Renews config changed → NodeRenewed config w₁ w') ∧
        (¬ Renews config changed → w' = w₁)) (fun _ _ => True) w₁ := by
    cases hr : w.host.running .node with
    | false => exact wp_mono (wp_trivial _ w₁) (fun _ _ _ h => by cases h) fun _ _ h => h
    | true =>
      refine wp_mono (activateNode_renews hs lib config changed (hlead.ticks.clocked hc) ?_ ?_)
        (fun _ _ h _ => h) fun _ _ h => h
      · rw [hsnap, hr]
      · rw [hlead.running, hr]
  have nodeTicks : Stays env Ticks (activateNode lib config changed snapshot (affected changed)) :=
    respects_ticks.activateNode hP lib config changed snapshot _
  refine wp_mono (wp_and (wp_and (wp_and (wp_and hnode
    (activateNode_frame lib config changed snapshot _ w₁))
    (activateNode_processes lib config changed snapshot _ w₁))
    (activateNode_units hs lib config changed _ hup)) (nodeTicks w₁)) (fun _ w₂ h₂ => ?_)
    fun e w₅ _ => rolledBack e w₅
  obtain ⟨⟨⟨⟨hnode, hnodeFiles⟩, hnodeProcesses⟩, hnodeUnits⟩, hnodeTicks⟩ := h₂
  have monitorTicks : Stays env Ticks (activateMonitor snapshot (affected changed)) :=
    respects_ticks.activateMonitor trivial snapshot _
  refine wp_mono (wp_and (wp_and (activateMonitor_host hs snapshot _ w₂)
    (activateMonitor_units hs _ (hup.trans hnodeUnits.symm))) (monitorTicks w₂))
    (fun _ w₃ h₃ => ?_) fun e w₅ _ => rolledBack e w₅
  obtain ⟨⟨hmonitor, hmonitorUnits⟩, hmonitorTicks⟩ := h₃
  refine wp_mono (activateRpcProxy_host hs snapshot _ w₃) (fun _ w₄ hproxy => ?_)
    fun e w₅ _ => rolledBack e w₅
  refine wp_mono (checkNode_host hs snapshot w₄) (fun _ w' hlast => ?_)
    fun e w₅ _ => rolledBack e w₅
  rw [hsnap] at hmonitor hproxy
  exact ⟨w₁, w₂, w₃, hwritten, hlead, hnode, hnodeFiles, hnodeProcesses, hnodeUnits, hnodeTicks,
    hmonitor, hmonitorUnits, hmonitorTicks, hlast.trans hproxy⟩

namespace Phases
variable {config : Config} {changed : Finset Key} {w w₁ w₂ w₃ w' : World}

/-- From the second phase on, the files of the monitor and the proxy are left alone. -/
theorem files_after (h : Phases config changed w w₁ w₂ w₃ w') {p : Path} (hp : ¬ Swappable p) :
    w'.host.files p = w₁.host.files p ∧ w'.host.written p = w₁.host.written p := by
  rw [h.proxy.files, h.proxy.written, h.monitor.files, h.monitor.written]
  exact h.nodeFiles p hp

theorem files_kept (h : Phases config changed w w₁ w₂ w₃ w') {p : Path} (hp : ¬ Swappable p)
    (ht : ¬ Touched changed (affected changed) p) : w'.host.files p = w.host.files p :=
  (h.files_after hp).1.trans (h.written p ht).1

theorem ticks₂ (h : Phases config changed w w₁ w₂ w₃ w') : Ticks w w₂ :=
  trans_of Ticks h.leading.ticks h.nodeTicks

theorem ticks₃ (h : Phases config changed w w₁ w₂ w₃ w') : Ticks w w₃ :=
  trans_of Ticks h.ticks₂ h.monitorTicks

end Phases

/-- `s` still has the process and the files it had. -/
structure Kept (s : Service) (w w' : World) : Prop where
  process : w'.host.process s = w.host.process s
  files : ∀ p ∈ serviceFiles s, w'.host.files p = w.host.files p

theorem swappable_iff {p : Path} : Swappable p ↔ p.isScratch ∨ p = .binary ∨ p = .cli := by
  constructor
  · rintro (h | ⟨t, rfl⟩)
    · exact .inl h
    · cases t
      · exact .inr (.inl rfl)
      · exact .inr (.inr rfl)
  · rintro (h | rfl | rfl)
    · exact .inl h
    · exact .inr ⟨.bitcoind, rfl⟩
    · exact .inr ⟨.bitcoinCli, rfl⟩

theorem not_swappable {s : Service} (hs : s ≠ .node) {p : Path} (hp : p ∈ serviceFiles s) :
    ¬ Swappable p := by
  rw [swappable_iff]
  cases s with
  | node => exact absurd rfl hs
  | monitor | rpcProxy =>
    simp only [serviceFiles, List.mem_cons, List.not_mem_nil, or_false] at hp
    rcases hp with rfl | rfl <;> simp [Path.isScratch]

theorem proxy_of_version {changed : Finset Key} (h : .rpcProxyVersion ∈ changed) :
    (affected changed).proxy = true := by
  refine Bool.or_eq_true_iff.2 (.inr (decide_eq_true ⟨.rpcProxyVersion, ?_⟩))
  exact Finset.mem_inter.2 ⟨by decide, h⟩

/-- The monitor and the proxy are restarted whenever one of their files is touched. -/
theorem touched_rewrites {changed : Finset Key} {s : Service} (hs : s ≠ .node) {p : Path}
    (hp : p ∈ serviceFiles s) (ht : Touched changed (affected changed) p) :
    Affected.rewrites (affected changed) s = true := by
  cases s with
  | node => exact absurd rfl hs
  | monitor =>
    simp only [serviceFiles, List.mem_cons, List.not_mem_nil, or_false] at hp
    rcases hp with rfl | rfl <;> exact ht
  | rpcProxy =>
    simp only [serviceFiles, List.mem_cons, List.not_mem_nil, or_false] at hp
    rcases hp with rfl | rfl
    · exact ht
    · exact proxy_of_version ht

section
variable {config : Config} {changed : Finset Key} {w w₁ w₂ w₃ w' : World}

theorem monitor_renewed_or_kept (hc : Clocked w) (h : Phases config changed w w₁ w₂ w₃ w')
    (hup : w.host.running .monitor = true) : Renewed .monitor w w' ∨ Kept .monitor w w' := by
  have hafter : w'.host.process .monitor = w₃.host.process .monitor :=
    h.proxy.process_ne (by decide) (by decide)
  have hmonitor := h.monitor
  rw [hup, Bool.and_true] at hmonitor
  cases ha : (affected changed).credentials with
  | true =>
    rw [ha] at hmonitor
    refine .inl (((hmonitor.renewed (h.ticks₂.clocked hc)).earlier h.ticks₂.le).mono hafter ?_)
    exact fun p _ => ⟨by rw [h.proxy.files], by rw [h.proxy.written]⟩
  | false =>
    rw [ha] at hmonitor
    refine .inr ⟨?_, fun p hp => h.files_kept (not_swappable (by decide) hp) fun ht => ?_⟩
    · rw [hafter, show w₃.host = w₂.host from hmonitor, h.nodeProcesses .monitor (by decide),
        h.leading.process]
    · have := touched_rewrites (s := .monitor) (by decide) hp ht
      simp [Affected.rewrites, ha] at this

theorem proxy_renewed_or_kept (hc : Clocked w) (h : Phases config changed w w₁ w₂ w₃ w')
    (hup : w.host.running .rpcProxy = true) : Renewed .rpcProxy w w' ∨ Kept .rpcProxy w w' := by
  have hproxy := h.proxy
  rw [hup, Bool.and_true] at hproxy
  cases ha : (affected changed).proxy with
  | true =>
    rw [ha] at hproxy
    exact .inl ((hproxy.renewed (h.ticks₃.clocked hc)).earlier h.ticks₃.le)
  | false =>
    rw [ha] at hproxy
    refine .inr ⟨?_, fun p hp => h.files_kept (not_swappable (by decide) hp) fun ht => ?_⟩
    · rw [show w'.host = w₃.host from hproxy, h.monitor.process_ne (by decide) (by decide),
        h.nodeProcesses .rpcProxy (by decide), h.leading.process]
    · have := touched_rewrites (s := .rpcProxy) (by decide) hp ht
      simp [Affected.rewrites, ha] at this

/-- After its own phase a running node is left alone. -/
theorem node_after (h : Phases config changed w w₁ w₂ w₃ w') (hup : w.host.running .node = true) :
    w'.host.process .node = w₂.host.process .node := by
  have hrun : w₃.host.running .node = true := by
    rw [h.monitorUnits, h.nodeUnits, h.leading.running, hup]
  rw [← h.monitor.process_ne (by decide : Service.node ≠ .monitor) (by decide)]
  exact h.proxy.node_process hrun

/-- A running node whose environment file is rewritten without a restart: a release key
changed, but there is no version to install. -/
structure Stranded (config : Config) (changed : Finset Key) (w : World) : Prop where
  running : w.host.running .node = true
  release : (releaseKeys ∩ changed).Nonempty
  version : (config .version).orEmpty = []
  environment : (w.host.files (.env .node)).map (·.data) ≠ some (utf8 (renderEnv config .node))

theorem node_of_release (h : (releaseKeys ∩ changed).Nonempty) :
    (affected changed).node = true := by
  obtain ⟨k, hk⟩ := h
  obtain ⟨hk, hc⟩ := Finset.mem_inter.1 hk
  refine decide_eq_true ⟨k, Finset.mem_inter.2 ⟨?_, hc⟩⟩
  revert hk
  cases k <;> decide

theorem node_renewed_or_kept {lib : Library} (h : Phases config changed w w₁ w₂ w₃ w')
    (hg : Generation lib config changed w.host w'.host) (hup : w.host.running .node = true)
    (hnot : ¬ Stranded config changed w) : NodeRenewed config w w' ∨ Kept .node w w' := by
  have hafter := node_after h hup
  by_cases hr : Renews config changed
  · refine .inl ((((h.node hup).1 hr).earlier h.leading.ticks.le).mono hafter (fun p _ => ?_) ?_)
    · rw [h.proxy.files, h.proxy.written, h.monitor.files, h.monitor.written]
      exact ⟨rfl, rfl⟩
    · rw [h.proxy.answered, h.monitor.answered]
  · have hsame : w₂ = w₁ := (h.node hup).2 hr
    refine .inr ⟨by rw [hafter, hsame, h.leading.process], ?_⟩
    have hkeys : (releaseKeys ∩ changed).Nonempty → (config .version).orEmpty = [] := by
      intro hk
      simpa [Renews, hk] using hr
    have hbinaries := hg.nodeBinaries
    rw [NodeBinaries, if_neg fun hboth => hboth.2 (hkeys hboth.1)] at hbinaries
    intro p hp
    simp only [serviceFiles, List.mem_cons, List.not_mem_nil, or_false] at hp
    rcases hp with rfl | rfl | rfl
    · rw [hg.envs, envAfter]
      split
      swap
      · rfl
      rename_i hnode
      have hk : (releaseKeys ∩ changed).Nonempty := by
        by_contra hk
        rw [Renews, if_neg hk] at hr
        exact hr hnode
      have hdata : (w.host.files (.env .node)).map (·.data) = some (utf8 (renderEnv config .node)) := by
        by_contra hne
        exact hnot ⟨hup, hk, hkeys hk, hne⟩
      obtain ⟨f, hf, hdata⟩ := Option.map_eq_some_iff.1 hdata
      rw [hf, ← hdata, overwritten_self]
    · exact hbinaries .bitcoind
    · exact hbinaries .bitcoinCli

theorem renewed_or_kept {lib : Library} (hc : Clocked w) (h : Phases config changed w w₁ w₂ w₃ w')
    (hg : Generation lib config changed w.host w'.host) (hnot : ¬ Stranded config changed w)
    (s : Service) (hup : w.host.running s = true) : Renewed s w w' ∨ Kept s w w' := by
  cases s with
  | node => exact (node_renewed_or_kept h hg hup hnot).imp NodeRenewed.toRenewed id
  | monitor => exact monitor_renewed_or_kept hc h hup
  | rpcProxy => exact proxy_renewed_or_kept hc h hup

/-- A process runs on the environment file that is there now. -/
def OnCurrentEnvironment (s : Service) (w : World) : Prop :=
  w.host.running s = true → (w.host.process s).environment = w.host.files (.env s)

theorem onCurrentEnvironment {lib : Library} (hc : Clocked w)
    (h : Phases config changed w w₁ w₂ w₃ w') (hg : Generation lib config changed w.host w'.host)
    (hunits : w'.host.running = activatedUnits w.host.running (affected changed))
    (hnot : ¬ Stranded config changed w) {s : Service} (hcur : OnCurrentEnvironment s w) :
    OnCurrentEnvironment s w' := by
  intro hup'
  cases hup : w.host.running s with
  | true =>
    rcases renewed_or_kept hc h hg hnot s hup with hr | hk
    · exact hr.environment
    · rw [hk.process, hcur hup, hk.files _ (by cases s <;> simp [serviceFiles])]
  | false =>
    -- only a node is ever brought up, by the proxy that wants it
    obtain rfl : s = .node := by
      by_contra hne
      rw [hunits, activatedUnits] at hup'
      split at hup'
      · rw [Function.update_of_ne hne, hup] at hup'
        cases hup'
      · rw [hup] at hup'
        cases hup'
    refine h.proxy.node_environment ?_ hup'
    rw [h.monitorUnits, h.nodeUnits, h.leading.running, hup]

end

/-- Whether the files `s` runs on were changed. -/
def FilesChanged (s : Service) (w w' : World) : Prop :=
  ∃ p ∈ serviceFiles s, w'.host.files p ≠ w.host.files p

/-- No service keeps running on files that were changed under it. -/
structure NoneSuperseded (config : Config) (changed : Finset Key) (w w' : World) : Prop where
  /-- Services whose files changed were started after the last write to them. -/
  restarted : ∀ s, w.host.running s = true → FilesChanged s w w' →
    w.history.length < (w'.host.process s).startedAt ∧
      ∀ p ∈ serviceFiles s, w'.host.written p < (w'.host.process s).startedAt
  /-- Processes keep running on their current environment files, -/
  environments : (∀ s, OnCurrentEnvironment s w) → ∀ s, OnCurrentEnvironment s w'
  /-- and so on the credentials of one configuration. -/
  credentials : (∀ s, OnCurrentEnvironment s w) → ∀ p : Config, changed = changedKeys p config →
    (∀ s, (w.host.files (.env s)).map (·.data) = some (utf8 (renderEnv p s))) →
    ∀ s, w'.host.running s = true →
      (w'.host.process s).environment.map (·.data) = some (utf8 (renderEnv config s))
  /-- A restarted node answered under the new credentials. -/
  answered : w.host.running .node = true → FilesChanged .node w w' →
    ∃ t, (w'.host.process .node).startedAt < t ∧ w'.host.answered =
      some (t, (config .rpcUser).orEmpty, (config .rpcPassword).orEmpty)

theorem Kept.not_changed {s : Service} {w w' : World} (h : Kept s w w') : ¬ FilesChanged s w w' := by
  rintro ⟨p, hp, hne⟩
  exact hne (h.files p hp)

theorem noneSuperseded_of_phases {lib : Library} {config : Config} {changed : Finset Key}
    {w w₁ w₂ w₃ w' : World} (hc : Clocked w) (h : Phases config changed w w₁ w₂ w₃ w')
    (hg : Generation lib config changed w.host w'.host)
    (hunits : w'.host.running = activatedUnits w.host.running (affected changed))
    (hnot : ¬ Stranded config changed w) : NoneSuperseded config changed w w' := by
  have henv : (∀ s, OnCurrentEnvironment s w) → ∀ s, OnCurrentEnvironment s w' :=
    fun hcur s => onCurrentEnvironment hc h hg hunits hnot (hcur s)
  refine ⟨fun s hup hch => ?_, henv, fun hcur p hp hold s hup => ?_, fun hup hch => ?_⟩
  · have hr := (renewed_or_kept hc h hg hnot s hup).resolve_right fun hk => hk.not_changed hch
    exact ⟨hr.since, hr.files⟩
  · subst hp
    rw [henv hcur s hup, hg.holds_envs hold s]
  · exact ((node_renewed_or_kept h hg hup hnot).resolve_right fun hk => hk.not_changed hch).answered

/-- A stranded node keeps its old process over a new environment file. -/
theorem Stranded.superseded {lib : Library} {config : Config} {changed : Finset Key}
    {w w₁ w₂ w₃ w' : World} (hs : Stranded config changed w) (hc : Clocked w)
    (h : Phases config changed w w₁ w₂ w₃ w')
    (hg : Generation lib config changed w.host w'.host) : ¬ NoneSuperseded config changed w w' := by
  intro hnone
  have hr : ¬ Renews config changed := by
    rw [Renews, if_pos hs.release]
    exact fun hne => hne hs.version
  have hsame : w₂ = w₁ := (h.node hs.running).2 hr
  have hproc : w'.host.process .node = w.host.process .node := by
    rw [node_after h hs.running, hsame, h.leading.process]
  have hch : FilesChanged .node w w' := by
    refine ⟨.env .node, by simp [serviceFiles], fun heq => hs.environment ?_⟩
    have hrewritten : Affected.rewrites (affected changed) .node = true := node_of_release hs.release
    rw [← heq, hg.envs, envAfter, if_pos hrewritten]
    rfl
  have hlate := (hnone.restarted .node hs.running hch).1
  rw [hproc] at hlate
  exact absurd (hc.started .node) (by omega)

/-- A transaction that returns leaves no service on a superseded generation exactly when
it does not strand the node. -/
theorem applyConfigTransaction_noneSuperseded_iff (hs : Steady env) (lib : Library)
    (config previous : Config) (changed : Finset Key) {w w' : World} (hc : Clocked w)
    (hres : applyConfigTransaction lib config previous changed env w = .ok () w') :
    NoneSuperseded config changed w w' ↔ ¬ Stranded config changed w := by
  have hg := wp_of_ok (applyConfigTransaction_files lib config previous changed w) hres
  by_cases hne : changed = ∅
  · subst hne
    obtain rfl : w = w' := by
      rw [applyConfigTransaction, runIf, if_neg (by simp)] at hres
      cases hres
      rfl
    refine ⟨fun _ hst => absurd hst.release (by simp), fun _ => ⟨?_, fun h => h, ?_, ?_⟩⟩
    · rintro s - ⟨p, -, hp⟩
      exact absurd rfl hp
    · intro hcur p hp hold s hup
      rw [hcur s hup]
      rw [hp] at hg
      exact hg.holds_envs hold s
    · rintro - ⟨p, -, hp⟩
      exact absurd rfl hp
  · have hunits := wp_of_ok (applyConfigTransaction_units hs lib config previous changed w) hres
    obtain ⟨w₁, w₂, w₃, h⟩ :=
      wp_of_ok (applyConfigTransaction_phases hs lib config previous hne hc) hres
    exact ⟨fun hnone hst => hst.superseded hc h hg hnone, noneSuperseded_of_phases hc h hg hunits⟩

/-- The node runs on the environment of `config`, next to the other environment files. -/
def nodeUp (config : Config) : World :=
  ⟨[], { files := fun p => match p with
           | .env s => some ⟨utf8 (renderEnv config s), 0o644⟩
           | _ => none
         running := fun s => decide (s = .node)
         process := fun s => ⟨0, some ⟨utf8 (renderEnv config s), 0o644⟩⟩ }⟩

theorem nodeUp_clocked (config : Config) : Clocked (nodeUp config) :=
  ⟨fun _ => le_refl _, fun _ => le_refl _⟩

/-- Nothing fails, and the node answers. -/
def answering : Environment := fun _ op =>
  match op with
  | .rpcPost _ _ => { reply := .subversion "/Satoshi:28.0.0/".toList }
  | _ => {}

theorem answering_steady : Steady answering := by
  intro hist op r
  cases op <;> rfl

def released : Config := Function.update noOptions .version (.str "28.0".toList)

def secured : Config := Function.update onlyUser .rpcPassword (.str "secret".toList)

/-- The version is withdrawn in the change that sets credentials: the node keeps running
without them. -/
theorem applyConfigTransaction_strands_node : ¬ ∀ (env : Environment) (lib : Library)
    (config previous : Config) (changed : Finset Key) (w w' : World), Steady env → Clocked w →
    applyConfigTransaction lib config previous changed env w = .ok () w' →
    NoneSuperseded config changed w w' := by
  intro h
  have hrun : returnsNormally (applyConfigTransaction emptyMirror secured released
    (changedKeys released secured) answering (nodeUp released)) = true := by decide +kernel
  obtain ⟨⟨⟩, w', hres⟩ := exists_of_returnsNormally hrun
  have hnone := h _ _ _ _ _ _ _ answering_steady (nodeUp_clocked _) hres
  refine (applyConfigTransaction_noneSuperseded_iff answering_steady emptyMirror secured released _
    (nodeUp_clocked _) hres).1 hnone ⟨rfl, ?_, rfl, ?_⟩
  · decide
  · decide +kernel

/-- Credentials set under a running node, which is restarted. -/
theorem applyConfigTransaction_noneSuperseded_secured : ∃ w',
    applyConfigTransaction emptyMirror secured noOptions (changedKeys noOptions secured) answering
      (nodeUp noOptions) = .ok () w' ∧
    NoneSuperseded secured (changedKeys noOptions secured) (nodeUp noOptions) w' := by
  have hrun : returnsNormally (applyConfigTransaction emptyMirror secured noOptions
    (changedKeys noOptions secured) answering (nodeUp noOptions)) = true := by decide +kernel
  obtain ⟨⟨⟩, w', hres⟩ := exists_of_returnsNormally hrun
  refine ⟨w', hres, (applyConfigTransaction_noneSuperseded_iff answering_steady emptyMirror secured
    noOptions _ (nodeUp_clocked _) hres).2 fun hst => ?_⟩
  exact absurd hst.release (by decide)

end BitcoinRpcOperator.ProcessGenerations
