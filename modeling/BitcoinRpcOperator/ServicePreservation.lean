import BitcoinRpcOperator.TransactionAtomicity

/-!
# Which services run after a transaction

On a machine whose units change only when the charm acts on them, a transaction that
returns restarts what ran, and a rollback stops everything and starts what ran. Both
go through the proxy's unit, whose `Wants=` starts the node.
-/

namespace BitcoinRpcOperator.ServicePreservation
open Text ServiceConfiguration FallibleProcedures HostSystem ReleaseInstaller ConfigTransaction
open HostSteps HostFrames ReleaseAtomicity TransactionAtomicity

variable {env : Environment} {w : World}

theorem serviceRunning_steady (hs : Steady env) (s : Service) (n : ℕ) (w : World) :
    wp env (serviceRunning s n) (fun up w' => w'.host = w.host ∧ (up = true → w.host.running s))
      (fun _ w' => w'.host = w.host) w := by
  induction n generalizing w with
  | zero => exact ⟨rfl, by simp⟩
  | succ n ih =>
    rw [serviceRunning, wp_bind]
    refine wp_getStatus_steady hs (fun _ _ => rfl) ?_
    rw [wp_ite]
    split
    · rename_i hup
      exact ⟨rfl, fun _ => hup⟩
    · exact ih _

theorem capture_units (hs : Steady env) (w : World) :
    wp env captureConfigTransaction
      (fun snapshot w' => snapshot.running = w.host.running ∧ w'.host.running = w.host.running)
      (fun _ w' => w'.host.running = w.host.running) w := by
  simp only [captureConfigTransaction, wp_bind]
  refine wp_mono (respects_undisturbed.captureFiles _ w) (fun files w₁ h₁ => ?_)
    fun _ _ h => h.running
  refine wp_getStatus_steady hs (fun _ _ => h₁.running) ?_
  refine wp_getStatus_steady hs (fun _ _ => h₁.running) ?_
  refine wp_getStatus_steady hs (fun _ _ => h₁.running) ⟨?_, h₁.running⟩
  funext s
  cases s <;> exact congrFun h₁.running _

theorem wp_require {Q : Unit → World → Prop} {E : Exc → World → Prop} {ready : Bool}
    {message : Str} (hE : ready = false → E (.runtimeError message none) w)
    (hQ : ready = true → Q () w) : wp env (require ready message) Q E w := by
  rw [require, wp_runIf]
  cases ready with
  | false => simpa using hE rfl
  | true => simpa using hQ rfl

/-- The units after an activation that returned, when `r` ran before. -/
def activatedUnits (r : Service → Bool) (a : Affected) : Service → Bool :=
  if a.proxy && r .rpcProxy then Function.update r .node true else r

theorem update_of_running {r : Service → Bool} {s : Service} (h : r s = true) :
    Function.update r s true = r := by
  rw [← h, Function.update_eq_self]

theorem installBitcoin_units (hs : Steady env) (lib : Library) (version : Str) (config : Config)
    (binaryUrl : Str) (w : World) :
    wp env (installBitcoin lib version config binaryUrl)
      (fun _ w' => w'.host.running = w.host.running) (fun _ _ => True) w := by
  rw [installBitcoin, wp_bind]
  by_cases hv : version = []
  · subst hv
    rfl
  · refine wp_mono (installRelease_spec lib hv binaryUrl config w) (fun _ w₁ h₁ => ?_)
      fun _ _ _ => trivial
    rw [wp_runIf, if_pos (by simpa using hv)]
    exact wp_perform (fun _ _ => trivial) fun _ => h₁.2 hs

theorem activateNode_units (hs : Steady env) (lib : Library) (config : Config)
    (changed : Finset Key) {snapshot : Snapshot} (a : Affected)
    (hsnap : snapshot.running = w.host.running) :
    wp env (activateNode lib config changed snapshot a)
      (fun _ w' => w'.host.running = w.host.running) (fun _ _ => True) w := by
  rw [activateNode, wp_ite]
  split
  · exact installBitcoin_units hs lib _ config _ w
  · rw [wp_runIf]
    split
    · rename_i hrun
      have hnode : w.host.running .node = true := by
        rw [← hsnap]
        exact (Bool.and_eq_true _ _ ▸ hrun).2
      simp only [wp_bind]
      refine wp_systemctl (fun _ _ _ => trivial) ?_
      refine wp_mono (respects_undisturbed.waitForRunningVersion config _) (fun _ w₁ h₁ => ?_)
        fun _ _ _ => trivial
      refine wp_require (fun _ => trivial) fun _ => ?_
      rw [h₁.running, systemctl_running]
      exact update_of_running hnode
    · rfl

theorem activateMonitor_units (hs : Steady env) {snapshot : Snapshot} (a : Affected)
    (hsnap : snapshot.running = w.host.running) :
    wp env (activateMonitor snapshot a)
      (fun _ w' => w'.host.running = w.host.running) (fun _ _ => True) w := by
  rw [activateMonitor, wp_runIf]
  split
  · rename_i hrun
    have hmonitor : w.host.running .monitor = true := by
      rw [← hsnap]
      exact (Bool.and_eq_true _ _ ▸ hrun).2
    simp only [wp_bind]
    refine wp_systemctl (fun _ _ _ => trivial) ?_
    refine wp_mono (serviceRunning_steady hs _ _ _) (fun _ w₁ h₁ => ?_) fun _ _ _ => trivial
    refine wp_require (fun _ => trivial) fun _ => ?_
    rw [h₁.1, systemctl_running]
    exact update_of_running hmonitor
  · rfl

theorem activateRpcProxy_units (hs : Steady env) {snapshot : Snapshot} (a : Affected)
    (hsnap : snapshot.running = w.host.running) :
    wp env (activateRpcProxy snapshot a)
      (fun _ w' => w'.host.running = activatedUnits w.host.running a) (fun _ _ => True) w := by
  rw [activateRpcProxy, wp_runIf, activatedUnits, ← hsnap]
  split
  · rename_i hrun
    have hproxy : w.host.running .rpcProxy = true := by
      rw [← hsnap]
      exact (Bool.and_eq_true _ _ ▸ hrun).2
    simp only [wp_bind, wp_fileExists]
    refine wp_require (fun _ => trivial) fun _ => ?_
    refine wp_systemctl (fun _ _ _ => trivial) ?_
    refine wp_mono (serviceRunning_steady hs _ _ _) (fun _ w₁ h₁ => ?_) fun _ _ _ => trivial
    refine wp_require (fun _ => trivial) fun _ => ?_
    rw [h₁.1, systemctl_running, hsnap]
    refine update_of_running ?_
    simpa using hproxy
  · exact hsnap.symm

theorem applyGeneration_units (hs : Steady env) (lib : Library) (config : Config)
    (changed : Finset Key) {snapshot : Snapshot} (hsnap : snapshot.running = w.host.running) :
    wp env (applyGeneration lib config changed snapshot)
      (fun _ w' => w'.host.running = activatedUnits w.host.running (affected changed))
      (fun _ _ => True) w := by
  simp only [applyGeneration, activateConfigGeneration, wp_bind]
  refine wp_mono (respects_undisturbed.writeConfigGeneration (fun _ _ => trivial) trivial lib config
    changed _ w) (fun _ w₁ h₁ => ?_) fun _ _ _ => trivial
  refine wp_mono (activateNode_units hs lib config changed _ (hsnap.trans h₁.running.symm))
    (fun _ w₂ h₂ => ?_) fun _ _ _ => trivial
  have h₂ : w₂.host.running = w.host.running := h₂.trans h₁.running
  refine wp_mono (activateMonitor_units hs _ (hsnap.trans h₂.symm)) (fun _ w₃ h₃ => ?_)
    fun _ _ _ => trivial
  have h₃ : w₃.host.running = w.host.running := h₃.trans h₂
  refine wp_mono (activateRpcProxy_units hs _ (hsnap.trans h₃.symm)) (fun _ w₄ h₄ => ?_)
    fun _ _ _ => trivial
  rw [h₃] at h₄
  rw [checkNode, wp_runIf]
  split
  · rw [wp_bind]
    refine wp_mono (serviceRunning_steady hs _ _ _) (fun _ w₅ h₅ => ?_) fun _ _ _ => trivial
    exact wp_require (fun _ => trivial) fun _ => by rw [h₅.1, h₄]
  · exact h₄

/-- The steps of a transaction's rollback. -/
def isTransactionAttempt (l : Attempt) : Bool := !isReleaseAttempt l

theorem failures_eq_nil_iff {w : World} : failures w = [] ↔ Clean isTransactionAttempt w := by
  simp only [failures, List.filterMap_eq_nil_iff, List.mem_filter, List.mem_reverse, failedText,
    Option.map_eq_none_iff, Clean, isTransactionAttempt, and_imp]

def commands (v : Verb) (label : Service → Attempt) (ss : List Service) :
    List (Attempt × Proc Unit) :=
  ss.map fun s => (label s, systemctl v s)

theorem commands_accounts (v : Verb) (label : Service → Attempt) (ss : List Service) :
    ∀ op ∈ commands v label ss, Stays env (Accounts fun _ => True) op.2 := by
  intro op hop
  obtain ⟨s, -, rfl⟩ := List.mem_map.1 hop
  exact (respects_accounts _).systemctl trivial v

/-- Commands that all succeeded, and what comes after them. -/
theorem attemptAll_commands_clean {K : Attempt → Bool} {v : Verb} {label : Service → Attempt}
    {rest : List (Attempt × Proc Unit)} {Q : World → Prop} {E : Exc → World → Prop}
    (hk : ∀ s, K (label s)) (hrest : ∀ op ∈ rest, Stays env (Accounts fun _ => True) op.2)
    (ss : List Service) (w : World)
    (h : ∀ w', w'.host.running = ss.foldl (fun r s => commandedUnits r v s) w.host.running →
      wp env (attemptAll rest) (fun _ w' => Clean K w' → Q w') E w') :
    wp env (attemptAll (commands v label ss ++ rest)) (fun _ w' => Clean K w' → Q w') E w := by
  induction ss generalizing w with
  | nil => exact h w rfl
  | cons s ss ih =>
    refine attemptAll_cons_clean (hk s) (fun op hop => ?_) (wp_systemctl (fun _ _ _ => trivial) ?_)
    · exact (List.mem_append.1 hop).elim (commands_accounts v label ss op) (hrest op)
    · refine ih _ fun w' hw' => h w' ?_
      rw [hw', noted_running, systemctl_running]
      rfl

/-- Files restored without failure, and what comes after them. -/
theorem attemptAll_restore_clean {K : Attempt → Bool} {rest : List (Attempt × Proc Unit)}
    {Q : World → Prop} {E : Exc → World → Prop} (hk : ∀ p, K (.restore p))
    (hrest : ∀ op ∈ rest, Stays env (Accounts fun _ => True) op.2)
    (files : List (Path × Option FileState)) (w : World)
    (h : ∀ w', w'.host.running = w.host.running →
      wp env (attemptAll rest) (fun _ w' => Clean K w' → Q w') E w') :
    wp env (attemptAll (restoreOperations files ++ rest)) (fun _ w' => Clean K w' → Q w') E w := by
  induction files generalizing w with
  | nil => exact h w rfl
  | cons e files ih =>
    have later : ∀ op ∈ restoreOperations files, Stays env (Accounts fun _ => True) op.2 :=
      fun op hop => (restoreOperations_keep (respects_accounts _)
        (fun _ _ => ⟨trivial, trivial⟩) op hop).2
    refine attemptAll_cons_clean (hk e.1) (fun op hop => ?_) ?_
    · exact (List.mem_append.1 hop).elim (later op) (hrest op)
    · refine wp_mono (respects_undisturbed.restoreFile trivial trivial e.2 w) (fun _ w₁ h₁ => ?_)
        fun _ _ _ => trivial
      exact ih _ fun w' hw' => h w' (hw'.trans h₁.running)

theorem startOperations_eq (r : Service → Bool) : startOperations r =
    (.daemonReload, daemonReload) ::
      commands .start .start (([.node, .monitor, .rpcProxy] : List Service).filter r) := by
  cases hn : r .node <;> cases hm : r .monitor <;> cases hp : r .rpcProxy <;>
    simp [startOperations, commands, hn, hm, hp, startService, startMonitor, startRpcProxy]

/-- The units after a rollback without failures, when `r` ran before. -/
def restartedUnits (r : Service → Bool) : Service → Bool
  | .node => r .node || r .rpcProxy
  | s => r s

theorem commandedUnits_start (r : Service → Bool) :
    (([.node, .monitor, .rpcProxy] : List Service).filter r).foldl
      (fun r s => commandedUnits r .start s) (fun _ => false) = restartedUnits r := by
  funext s
  cases hn : r .node <;> cases hm : r .monitor <;> cases hp : r .rpcProxy <;> cases s <;>
    simp [commandedUnits, restartedUnits, hn, hm, hp, Function.update]

theorem rollbackOperations_units (snapshot : Snapshot) (w : World) :
    wp env (attemptAll (rollbackOperations snapshot))
      (fun _ w' => Clean isTransactionAttempt w' →
        w'.host.running = restartedUnits snapshot.running) (fun _ _ => False) w := by
  have starts : ∀ op ∈ startOperations snapshot.running, Stays env (Accounts fun _ => True) op.2 :=
    fun op hop => (startOperations_keep (respects_accounts _) (fun _ => trivial) _ op hop).2
  have restores : ∀ op ∈ restoreOperations snapshot.files, Stays env (Accounts fun _ => True) op.2 :=
    fun op hop => (restoreOperations_keep (respects_accounts _)
      (fun _ _ => ⟨trivial, trivial⟩) op hop).2
  refine attemptAll_commands_clean (K := isTransactionAttempt)
    (fun _ => rfl) (fun op hop => (List.mem_append.1 hop).elim (restores op) (starts op))
    [.rpcProxy, .monitor, .node] w
    fun w₁ h₁ => ?_
  refine attemptAll_restore_clean (fun _ => rfl) starts snapshot.files w₁ fun w₂ h₂ => ?_
  have hdown : w₂.host.running = fun _ => false := by
    rw [h₂, h₁]
    funext s
    cases s <;> rfl
  rw [startOperations_eq]
  refine attemptAll_cons_clean rfl (commands_accounts _ _ _) (wp_perform (fun _ _ => trivial) ?_)
  intro _
  rw [← List.append_nil (commands _ _ _)]
  refine attemptAll_commands_clean (fun _ => rfl) (by simp) _ _ fun w₃ h₃ _ => ?_
  rw [h₃, noted_running, hdown]
  exact commandedUnits_start snapshot.running

/-- Steady units are only asked about, and the account grows. -/
theorem restoredErrors_units (hs : Steady env) (snapshot : Snapshot) (previous : Config)
    (s : Service) (w : World) :
    wp env (restoredErrors snapshot previous s) (fun _ w' => w'.host.running = w.host.running)
      (fun _ w' => w'.host.running = w.host.running) w := by
  have service : wp env (serviceReadinessErrors s) (fun _ w' => w'.host.running = w.host.running)
      (fun _ w' => w'.host.running = w.host.running) w := by
    simp only [serviceReadinessErrors, readinessErrors, wp_bind, wp_tryCatch, wp_note, wp_pure,
      wp_throw]
    exact wp_mono (serviceRunning_steady hs s 4 w) (fun _ w₁ h₁ => by rw [noted_running, h₁.1])
      fun _ w₁ h₁ => by rw [noted_running, h₁]
  rw [restoredErrors.eq_def, wp_ite]
  split
  · cases s with
    | node =>
      have keeps : Stays env Undisturbed (waitForRunningVersion previous) :=
        respects_undisturbed.waitForRunningVersion previous
      simp only [nodeReadinessErrors, readinessErrors, wp_bind, wp_tryCatch, wp_note, wp_pure]
      exact wp_mono (keeps w) (fun _ w₁ h₁ => h₁.running) fun _ w₁ h₁ => h₁.running
    | monitor | rpcProxy => exact service
  · rfl

theorem restoredServiceErrors_units (hs : Steady env) (snapshot : Snapshot) (previous : Config)
    (w : World) :
    wp env (restoredServiceErrors snapshot previous)
      (fun _ w' => w'.host.running = w.host.running)
      (fun _ w' => w'.host.running = w.host.running) w := by
  simp only [restoredServiceErrors, wp_bind, wp_pure]
  refine wp_mono (restoredErrors_units hs snapshot previous .node w) (fun _ w₁ h₁ => ?_)
    fun _ _ h => h
  refine wp_mono (restoredErrors_units hs snapshot previous .monitor w₁) (fun _ w₂ h₂ => ?_)
    fun _ _ h => h.trans h₁
  exact wp_mono (restoredErrors_units hs snapshot previous .rpcProxy w₂)
    (fun _ w₃ h₃ => (h₃.trans h₂).trans h₁) fun _ _ h => (h.trans h₂).trans h₁

theorem rollbackConfigTransaction_units (hs : Steady env) (snapshot : Snapshot) (cause : Exc)
    (previous : Config) (w : World) :
    let restarted := fun w' : World => Clean isTransactionAttempt w' →
      w'.host.running = restartedUnits snapshot.running
    wp env (rollbackConfigTransaction snapshot cause previous) (fun _ => restarted)
      (fun _ => restarted) w := by
  intro restarted
  have grows : Stays env (Accounts fun _ => True) (restoredServiceErrors snapshot previous) :=
    (respects_accounts _).restoredServiceErrors (fun _ => trivial) (fun _ => ⟨trivial, trivial⟩) _ _
  simp only [rollbackConfigTransaction, wp_bind]
  refine wp_mono (rollbackOperations_units snapshot w) (fun _ w₁ h₁ => ?_) fun _ _ h => h.elim
  have kept : ∀ w₂ : World, w₂.host.running = w₁.host.running → Accounts (fun _ => True) w₁ w₂ →
      restarted w₂ := fun w₂ hrun hacc hc => hrun.trans (h₁ (hc.of_accounts hacc))
  refine wp_mono (wp_and (restoredServiceErrors_units hs snapshot previous w₁) (grows w₁))
    (fun _ w₂ h₂ => ?_) fun _ w₂ h₂ => kept w₂ h₂.1 h₂.2
  rw [wp_runIf]
  split <;> exact kept w₂ h₂.1 h₂.2

theorem untracked_inter {changed ks : Finset Key} (h : ∀ k ∈ trackedConfig, k ∉ changed)
    (hks : ∀ k ∈ ks, k ∈ trackedConfig) : ¬ (ks ∩ changed).Nonempty := by
  rintro ⟨k, hk⟩
  obtain ⟨hk, hc⟩ := Finset.mem_inter.1 hk
  exact h k (hks k hk) hc

theorem affected_none {changed : Finset Key} (h : ∀ k ∈ trackedConfig, k ∉ changed) :
    affected changed = ⟨false, false, false⟩ := by
  have hcred : ¬ ({.rpcUser, .rpcPassword} ∩ changed : Finset Key).Nonempty :=
    untracked_inter h (by decide)
  have hnode : ¬ ({.rpcUser, .rpcPassword, .serviceArgs, .disableWallet, .version, .binaryUrl} ∩
    changed : Finset Key).Nonempty := untracked_inter h (by decide)
  have hproxy : ¬ ({.rpcProxyFilter, .rpcProxyVersion, .rpcProxyListen,
    .rpcProxyExtendAllowlist} ∩ changed : Finset Key).Nonempty := untracked_inter h (by decide)
  simp [affected, hcred, hnode, hproxy]

/-- With no tracked key changed and the node down there is nothing that could raise. -/
theorem applyGeneration_untracked {changed : Finset Key} (h : ∀ k ∈ trackedConfig, k ∉ changed)
    (lib : Library) (config : Config) {snapshot : Snapshot} (hnode : snapshot.running .node = false)
    (w : World) : applyGeneration lib config changed snapshot env w = .ok () w := by
  have hversion : ¬ (releaseKeys ∩ changed).Nonempty := untracked_inter h (by decide)
  have hproxy : Key.rpcProxyVersion ∉ changed := h _ (by decide)
  rw [applyGeneration, affected_none h]
  simp only [writeConfigGeneration, activateConfigGeneration, activateNode, activateMonitor,
    activateRpcProxy, checkNode, runIf, if_neg hproxy, if_neg hversion, hnode, Bool.false_and,
    Bool.false_eq_true, if_false]
  rfl

theorem activatedUnits_unaffected (r : Service → Bool) :
    activatedUnits r (affected ∅) = r := by
  rw [affected_none (by simp)]
  rfl

/-- Which units run after a transaction, on either exit. -/
theorem applyConfigTransaction_units (hs : Steady env) (lib : Library) (config previous : Config)
    (changed : Finset Key) (w : World) :
    wp env (applyConfigTransaction lib config previous changed)
      (fun _ w' => w'.host.running = activatedUnits w.host.running (affected changed))
      (fun _ w' => w'.host.running = w.host.running ∨
        (((∃ k ∈ trackedConfig, k ∈ changed) ∨ w.host.running .node = true) ∧
          (Clean isTransactionAttempt w' → w'.host.running = restartedUnits w.host.running))) w := by
  rw [applyConfigTransaction, wp_runIf]
  split
  swap
  · rename_i hempty
    rw [not_ne_iff.1 hempty]
    exact (activatedUnits_unaffected _).symm
  simp only [wp_bind, wp_tryCatch, wp_throw]
  refine wp_mono (capture_units hs w) (fun snapshot w₁ h₁ => ?_) fun _ _ h => .inl h
  obtain ⟨hsnap, hrun₁⟩ := h₁
  refine wp_mono (wp_and (applyGeneration_units hs lib config changed (hsnap.trans hrun₁.symm))
    (wp_run _ w₁)) (fun _ w₂ h₂ => hrun₁ ▸ h₂.1) fun exc w₂ h₂ => ?_
  have hcould : (∃ k ∈ trackedConfig, k ∈ changed) ∨ w.host.running .node = true := by
    by_contra hnot
    obtain ⟨huntracked, hdown⟩ := not_or.1 hnot
    have hok : applyGeneration lib config changed snapshot env w₁ = .ok () w₁ :=
      applyGeneration_untracked (fun k hk hc => huntracked ⟨k, hk, hc⟩) lib config
        (by simpa [hsnap] using hdown) w₁
    rw [hok] at h₂
    cases h₂.2
  refine wp_mono (rollbackConfigTransaction_units hs snapshot exc previous w₂) (fun _ w' h => ?_)
    fun _ w' h => ?_
  · exact .inr ⟨hcould, hsnap ▸ h⟩
  · exact .inr ⟨hcould, hsnap ▸ h⟩

/-- The same services run after a transaction that returned or was rolled back. -/
structure UnitsKept (env : Environment) (lib : Library) (config previous : Config)
    (changed : Finset Key) (w : World) : Prop where
  returned : ∀ w', applyConfigTransaction lib config previous changed env w = .ok () w' →
    w'.host.running = w.host.running
  rolledBack : ∀ e w', applyConfigTransaction lib config previous changed env w = .error e w' →
    failures w' = [] → w'.host.running = w.host.running

theorem activatedUnits_kept {r : Service → Bool} {a : Affected}
    (h : r .node = true ∨ r .rpcProxy = false ∨ a.proxy = false) : activatedUnits r a = r := by
  unfold activatedUnits
  split
  · rename_i hproxy
    obtain ⟨ha, hp⟩ := Bool.and_eq_true_iff.1 hproxy
    exact update_of_running (h.resolve_right (by simp [ha, hp]))
  · rfl

theorem restartedUnits_kept {r : Service → Bool} (h : r .node = true ∨ r .rpcProxy = false) :
    restartedUnits r = r := by
  funext s
  cases s with
  | node => rcases h with h | h <;> simp [restartedUnits, h]
  | monitor | rpcProxy => rfl

theorem unitsKept_of_node_or_no_proxy (hs : Steady env) (lib : Library) (config previous : Config)
    {changed : Finset Key} {w : World} (h : w.host.running .node = true ∨
      w.host.running .rpcProxy = false ∨ ∀ k ∈ trackedConfig, k ∉ changed) :
    UnitsKept env lib config previous changed w := by
  have hunits := applyConfigTransaction_units hs lib config previous changed w
  refine ⟨fun w' hres => ?_, fun e w' hres hnil => ?_⟩
  · rw [wp_of_ok hunits hres]
    refine activatedUnits_kept (h.imp id (Or.imp id fun hu => ?_))
    rw [affected_none hu]
  · rcases wp_of_error hunits hres with hsame | ⟨hcould, hback⟩
    · exact hsame
    · rw [hback (failures_eq_nil_iff.1 hnil)]
      refine restartedUnits_kept ?_
      rcases h with h | h | h
      · exact .inl h
      · exact .inr h
      · refine .inl (hcould.resolve_left ?_)
        rintro ⟨k, hk, hc⟩
        exact h k hk hc

def unwritable : Environment := fun _ op =>
  match op with
  | .write p => if p.isScratch then {} else { raises := some "Read-only file system".toList }
  | _ => {}

theorem unwritable_steady : Steady unwritable := by
  intro hist op r
  cases op with
  | write p => cases hp : p.isScratch <;> simp [unwritable, hp]
  | _ => rfl

/-- Every run of `m` raises. -/
def AlwaysRaises (env : Environment) {α : Type} (m : Proc α) : Prop :=
  ∀ w, wp env m (fun _ _ => False) (fun _ _ => True) w

theorem AlwaysRaises.bind {α β : Type} {m : Proc β} {f : β → Proc α} (h : AlwaysRaises env m) :
    AlwaysRaises env (m >>= f) := fun w => by
  rw [wp_bind]
  exact wp_mono (h w) (fun _ _ h => h.elim) fun _ _ h => h

theorem AlwaysRaises.after {α β : Type} {f : β → Proc α} (h : ∀ b, AlwaysRaises env (f b))
    (m : Proc β) : AlwaysRaises env (m >>= f) := fun w => by
  rw [wp_bind]
  exact wp_mono (wp_trivial m w) (fun b w' _ => h b w') fun _ _ h => h

theorem AlwaysRaises.runIf {c : Prop} [Decidable c] {m : Proc Unit} (hc : c)
    (h : AlwaysRaises env m) : AlwaysRaises env (runIf c m) := fun w => by
  rw [wp_runIf, if_pos hc]
  exact h w

theorem writeFile_raises {p : Path} (hp : p.isScratch = false) (data : Bytes) :
    AlwaysRaises unwritable (writeFile p data) := by
  intro w
  rw [writeFile, wp_bind]
  exact wp_external (fun _ _ => trivial) fun h => by simp [unwritable, hp] at h

theorem writeConfigGeneration_raises (lib : Library) (config : Config) (changed : Finset Key)
    {a : Affected} (ha : a.node = true ∨ a.proxy = true) :
    AlwaysRaises unwritable (writeConfigGeneration lib config changed a) := by
  have args : AlwaysRaises unwritable (updateServiceArgs config false) :=
    .after (fun _ => .after (fun _ => (writeFile_raises rfl _).bind) _) _
  have proxy : AlwaysRaises unwritable (installRpcProxyService lib config false) :=
    .after (fun _ => (writeFile_raises rfl _).bind) _
  refine .after (fun _ => ?_) _
  rcases ha with ha | ha
  · exact (AlwaysRaises.runIf ha args.bind).bind
  · exact .after (fun _ => .after (fun _ => .runIf ha proxy) _) _

theorem affected_of_tracked {changed : Finset Key} {k : Key} (hk : k ∈ trackedConfig)
    (hc : k ∈ changed) : (affected changed).node = true ∨ (affected changed).proxy = true := by
  have mem : ∀ ks : Finset Key, k ∈ ks → (ks ∩ changed).Nonempty := fun ks hks =>
    ⟨k, Finset.mem_inter.2 ⟨hks, hc⟩⟩
  by_cases hnode : k ∈ ({.rpcUser, .rpcPassword, .serviceArgs, .disableWallet, .version,
      .binaryUrl} : Finset Key)
  · exact .inl (decide_eq_true (mem _ hnode))
  · have hproxy : k ∈ ({.rpcProxyFilter, .rpcProxyVersion, .rpcProxyListen,
        .rpcProxyExtendAllowlist} : Finset Key) := by
      revert hk hnode
      cases k <;> decide
    exact .inr (Bool.or_eq_true_iff.2 (.inr (decide_eq_true (mem _ hproxy))))

/-- Every run of `m` returns. -/
def AlwaysReturns (env : Environment) {α : Type} (m : Proc α) : Prop :=
  ∀ w, wp env m (fun _ _ => True) (fun _ _ => False) w

theorem AlwaysReturns.bind {α β : Type} {m : Proc β} {f : β → Proc α} (h : AlwaysReturns env m)
    (h' : ∀ b, AlwaysReturns env (f b)) : AlwaysReturns env (m >>= f) := fun w => by
  rw [wp_bind]
  exact wp_mono (h w) (fun b w' _ => h' b w') fun _ _ h => h

theorem external_returns {op : Op} (h : ∀ hist, (env hist op).raises = none)
    (failed done : Answer → ℕ → Host → Host) : AlwaysReturns env (external op failed done) :=
  fun _ => wp_external (fun m hm => by simp [h] at hm) fun _ => trivial

theorem perform_returns {op : Op} (h : ∀ hist, (env hist op).raises = none)
    (done : ℕ → Host → Host) : AlwaysReturns env (perform op done) :=
  (external_returns h _ _).bind fun _ _ => trivial

theorem systemctl_returns (v : Verb) (s : Service) : AlwaysReturns unwritable (systemctl v s) :=
  (external_returns (fun _ => rfl) _ _).bind fun _ _ => trivial

theorem getStatus_returns (s : Service) : AlwaysReturns unwritable (getStatus s) :=
  (external_returns (fun _ => rfl) _ _).bind fun _ _ => trivial

theorem restoreFile_returns (p : Path) (f : Option FileState) :
    AlwaysReturns unwritable (restoreFile p f) := by
  cases f with
  | none => exact perform_returns (fun _ => rfl) _
  | some f =>
    refine (perform_returns (fun _ => rfl) _).bind fun _ w => ?_
    simp only [mkstemp, wp_bind, wp_onRaise, wp_pure, writeFile, chmod, replace]
    refine wp_perform (fun m hm => by simp [unwritable] at hm) fun _ => ?_
    refine wp_external (fun m hm => by simp [unwritable, Path.isScratch] at hm) fun _ => ?_
    refine wp_fileAt (fun hnone => by simp at hnone) fun f₁ hf₁ => ?_
    refine wp_perform (fun m hm => by simp [unwritable] at hm) fun _ => ?_
    refine wp_fileAt (fun hnone => by simp at hnone) fun f₂ hf₂ => ?_
    exact wp_perform (fun m hm => by simp [unwritable] at hm) fun _ => trivial

theorem captureFile_returns (p : Path) : AlwaysReturns unwritable (captureFile p) := by
  intro w
  simp only [captureFile, wp_bind, wp_fileExists]
  cases hp : w.host.files p with
  | none => trivial
  | some f =>
    simp only [Option.isSome_some, wp_bind, wp_pure, readBytes, statMode]
    refine wp_observe (fun m hm => by simp [unwritable] at hm) fun _ => ?_
    refine wp_fileAt (fun hnone => by simp [hp] at hnone) fun f₁ _ => ?_
    refine wp_observe (fun m hm => by simp [unwritable] at hm) fun _ => ?_
    exact wp_fileAt (fun hnone => by simp [hp] at hnone) fun f₂ _ => trivial

theorem captureFiles_returns (ps : List Path) : AlwaysReturns unwritable (captureFiles ps) := by
  induction ps with
  | nil => exact fun _ => trivial
  | cons p ps ih => exact (captureFile_returns p).bind fun _ => ih.bind fun _ _ => trivial

theorem capture_returns : AlwaysReturns unwritable captureConfigTransaction :=
  (captureFiles_returns _).bind fun _ => (getStatus_returns _).bind fun _ =>
    (getStatus_returns _).bind fun _ => (getStatus_returns _).bind fun _ _ => trivial

theorem attemptAll_no_errors {ops : List (Attempt × Proc Unit)}
    (h : ∀ op ∈ ops, AlwaysReturns env op.2) (w : World) :
    wp env (attemptAll ops) (fun errors _ => errors = []) (fun _ _ => False) w := by
  induction ops generalizing w with
  | nil => rfl
  | cons op ops ih =>
    rw [wp_attemptAll_cons]
    refine wp_mono (h op (by simp) w) (fun _ w' _ => ?_) fun _ _ h => h.elim
    exact ih (fun op hop => h op (List.mem_cons_of_mem _ hop)) _

theorem rollbackOperations_return (snapshot : Snapshot) :
    ∀ op ∈ rollbackOperations snapshot, AlwaysReturns unwritable op.2 := by
  intro op hop
  rw [rollbackOperations, startOperations_eq] at hop
  rcases List.mem_append.1 hop with hop | hop
  · simp only [stopOperations, List.mem_cons, List.not_mem_nil, or_false] at hop
    rcases hop with rfl | rfl | rfl <;> exact systemctl_returns _ _
  rcases List.mem_append.1 hop with hop | hop
  · obtain ⟨e, -, rfl⟩ := List.mem_map.1 hop
    exact restoreFile_returns e.1 e.2
  rcases List.mem_cons.1 hop with rfl | hop
  · exact perform_returns (fun _ => rfl) _
  · obtain ⟨s, -, rfl⟩ := List.mem_map.1 hop
    exact systemctl_returns _ s

/-- The check of a service that is up finds it up at once. -/
theorem restoredErrors_none (snapshot : Snapshot) (previous : Config) (s : Service)
    (hs : s ≠ .node ∨ snapshot.running s = false)
    (hup : snapshot.running s = true → w.host.running s = true) :
    wp unwritable (restoredErrors snapshot previous s)
      (fun errors w' => errors = [] ∧ w'.host.running = w.host.running) (fun _ _ => False) w := by
  rw [restoredErrors.eq_def, wp_ite]
  split
  · rename_i hrun
    have service : wp unwritable (serviceReadinessErrors s)
        (fun errors w' => errors = [] ∧ w'.host.running = w.host.running) (fun _ _ => False) w := by
      simp only [serviceReadinessErrors, readinessErrors, wp_bind, wp_tryCatch, wp_note, wp_pure,
        wp_throw]
      rw [serviceRunning, wp_bind]
      refine wp_getStatus_steady unwritable_steady (fun m hm => by simp [unwritable] at hm) ?_
      rw [wp_ite, if_pos (hup hrun)]
      refine ⟨?_, rfl⟩
      simp
    cases s with
    | node =>
      rw [hs.resolve_left fun hne => hne rfl] at hrun
      cases hrun
    | monitor | rpcProxy => exact service
  · exact ⟨rfl, rfl⟩

theorem restoredServiceErrors_none {snapshot : Snapshot} (previous : Config)
    (hnode : snapshot.running .node = false)
    (hup : w.host.running = restartedUnits snapshot.running) :
    wp unwritable (restoredServiceErrors snapshot previous)
      (fun errors _ => errors = []) (fun _ _ => False) w := by
  have up : ∀ s (w' : World), s ≠ .node → w'.host.running = w.host.running → snapshot.running s = true →
      w'.host.running s = true := by
    intro s w' hs hw' hrun
    rw [hw', hup]
    cases s with
    | node => exact absurd rfl hs
    | monitor | rpcProxy => exact hrun
  simp only [restoredServiceErrors, wp_bind, wp_pure]
  refine wp_mono (restoredErrors_none snapshot previous .node (.inr hnode) (by simp [hnode]))
    (fun _ w₁ h₁ => ?_) fun _ _ h => h
  refine wp_mono (restoredErrors_none snapshot previous .monitor (.inl (by decide))
    (up _ _ (by decide) h₁.2)) (fun _ w₂ h₂ => ?_) fun _ _ h => h
  refine wp_mono (restoredErrors_none snapshot previous .rpcProxy (.inl (by decide))
    (up _ _ (by decide) (h₂.2.trans h₁.2))) (fun _ w₃ h₃ => ?_) fun _ _ h => h
  rw [h₁.1, h₂.1, h₃.1]
  rfl

theorem rollback_returns {snapshot : Snapshot} (hnode : snapshot.running .node = false)
    (cause : Exc) (previous : Config) (hw : ∀ e ∈ w.host.attempts, isReleaseAttempt e.1) :
    wp unwritable (rollbackConfigTransaction snapshot cause previous)
      (fun _ w' => failures w' = [] ∧ w'.host.running = restartedUnits snapshot.running)
      (fun _ _ => False) w := by
  have caught : ∀ op ∈ rollbackOperations snapshot, isCaught op.1 ∧ KeepsAccount unwritable op.2 :=
    rollbackOperations_keep (respects_accounts _) (fun _ => trivial) fun _ _ => ⟨trivial, trivial⟩
  simp only [rollbackConfigTransaction, wp_bind]
  refine wp_mono (wp_and (wp_and (attemptAll_no_errors (rollbackOperations_return snapshot) w)
    (attemptAll_reported _ caught w)) (rollbackOperations_units snapshot w))
    (fun failed w₁ h₁ => ?_) fun _ _ h => h.2.elim
  obtain ⟨⟨rfl, hreported⟩, hunits⟩ := h₁
  have hclean := failures_eq_nil_iff.1 (failures_of_reported hw hreported).1
  have hrun := hunits hclean
  refine wp_mono (wp_and (wp_and (restoredServiceErrors_none previous hnode hrun)
    (restoredServiceErrors_spec snapshot previous w₁))
    (restoredServiceErrors_units unwritable_steady snapshot previous w₁))
    (fun notReady w₂ h₂ => ?_) fun _ _ h => h.1.1.elim
  obtain ⟨⟨rfl, hreported₂⟩, hrun₂⟩ := h₂
  rw [wp_runIf, if_neg (by simp)]
  exact ⟨(failures_of_reported hw (hreported.append hreported₂)).1, hrun₂.trans hrun⟩

/-- A node that was down comes up with the proxy it is wanted by. -/
theorem unwritable_restarts (lib : Library) (config previous : Config) {changed : Finset Key}
    {k : Key} (hk : k ∈ trackedConfig) (hc : k ∈ changed)
    (hnode : w.host.running .node = false) (hw : w.host.attempts = []) :
    ∃ e w', applyConfigTransaction lib config previous changed unwritable w = .error e w' ∧
      failures w' = [] ∧ w'.host.running = restartedUnits w.host.running := by
  have captureKeeps : KeepsAccount unwritable captureConfigTransaction :=
    (respects_accounts _).captureConfigTransaction fun _ => trivial
  refine exists_error_of_wp ?_
  rw [applyConfigTransaction, wp_runIf, if_pos (Finset.ne_empty_of_mem hc)]
  simp only [wp_bind, wp_tryCatch, wp_throw]
  refine wp_mono (wp_and (wp_and (capture_returns w) (captureKeeps w))
    (capture_units unwritable_steady w)) (fun snapshot w₁ h₁ => ?_) fun _ _ h => h.1.1.elim
  obtain ⟨⟨-, haccount⟩, hsnap, -⟩ := h₁
  have hraises : AlwaysRaises unwritable (applyGeneration lib config changed snapshot) :=
    (writeConfigGeneration_raises lib config changed (affected_of_tracked hk hc)).bind
  refine wp_mono (wp_and (hraises w₁) (applyGeneration_accounts lib config changed snapshot w₁))
    (fun _ _ h => h.1.elim) fun exc w₂ h₂ => ?_
  obtain ⟨entries, hentries, hrelease⟩ := h₂.2
  have hw₂ : ∀ e ∈ w₂.host.attempts, isReleaseAttempt e.1 := by
    rw [hentries, attempts_eq_of_accounts haccount, hw, List.append_nil]
    exact hrelease
  refine wp_mono (rollback_returns (hsnap ▸ hnode) exc previous hw₂) (fun _ w' h => ?_)
    fun _ _ h => h.elim
  exact ⟨h.1, hsnap ▸ h.2⟩

/-- Transactions keep which services run, whatever faults they meet, exactly when the
node runs, the proxy does not, or no tracked key changed: otherwise the proxy's
`Wants=` can bring a stopped node up. -/
theorem applyConfigTransaction_unitsKept_iff (lib : Library) (config previous : Config)
    (changed : Finset Key) (w : World) (hw : w.host.attempts = []) :
    (∀ env, Steady env → UnitsKept env lib config previous changed w) ↔
      (w.host.running .node = true ∨ w.host.running .rpcProxy = false ∨
        ∀ k ∈ trackedConfig, k ∉ changed) := by
  refine ⟨fun hkept => ?_, fun h env hs => unitsKept_of_node_or_no_proxy hs lib config previous h⟩
  by_contra hnot
  simp only [not_or, not_forall, Bool.not_eq_true, Bool.not_eq_false, not_not] at hnot
  obtain ⟨hnode, hproxy, k, hk, hc⟩ := hnot
  obtain ⟨e, w', hres, hnil, hrun⟩ := unwritable_restarts lib config previous hk hc hnode hw
  have hsame := (hkept unwritable unwritable_steady).rolledBack e w' hres hnil
  have hup : restartedUnits w.host.running .node = w.host.running .node := by
    rw [← hrun, hsame]
  simp [restartedUnits, hnode, hproxy] at hup

/-- The proxy runs in front of a node the operator stopped. -/
def proxyUp : World :=
  ⟨[], { files := fun _ => none, running := fun s => decide (s = .rpcProxy) }⟩

/-- A changed user that cannot be written: the rollback starts the stopped node. -/
theorem applyConfigTransaction_starts_node : ¬ ∀ (env : Environment) (lib : Library)
    (config previous : Config) (changed : Finset Key) (w : World), w.host.attempts = [] →
    Steady env → UnitsKept env lib config previous changed w := by
  intro h
  have hkept := h unwritable emptyMirror userSet unset {.rpcUser} proxyUp rfl unwritable_steady
  obtain ⟨e, w', hres, hnil, hrun⟩ := unwritable_restarts emptyMirror userSet unset
    (w := proxyUp) (k := .rpcUser) (by decide) (by decide : Key.rpcUser ∈ ({.rpcUser} : Finset Key))
    rfl rfl
  have hup := congrFun (hrun.symm.trans (hkept.rolledBack e w' hres hnil)) .node
  exact absurd hup (by decide)

theorem applyConfigTransaction_unitsKept_iff_monitorUp :
    monitorUp.host.attempts = [] ∧
    ((∀ env, Steady env → UnitsKept env emptyMirror userSet unset {.rpcUser} monitorUp) ↔
      (monitorUp.host.running .node = true ∨ monitorUp.host.running .rpcProxy = false ∨
        ∀ k ∈ trackedConfig, k ∉ ({.rpcUser} : Finset Key))) :=
  ⟨rfl, applyConfigTransaction_unitsKept_iff emptyMirror userSet unset {.rpcUser} monitorUp rfl⟩

end BitcoinRpcOperator.ServicePreservation
