import BitcoinRpcOperator.ReleaseAtomicity

/-!
# A failed transaction puts every managed file back

The snapshot holds every managed file as it was, nothing else is written besides
scratch files, and each rollback step that returns does its part whatever the others
do. The account of rollback steps is compared with the text of the exception.
-/

namespace BitcoinRpcOperator.TransactionAtomicity
open Text ServiceConfiguration FallibleProcedures HostSystem ReleaseInstaller ConfigTransaction
open HostSteps HostFrames

variable {env : Environment} {w : World}

theorem captureFile_spec (p : Path) (w : World) :
    wp env (captureFile p) (fun f w' => f = w.host.files p ∧ w'.host.files = w.host.files)
      (fun _ _ => True) w := by
  simp only [captureFile, wp_bind, wp_fileExists]
  cases hp : w.host.files p with
  | none => exact ⟨rfl, rfl⟩
  | some f =>
    simp only [Option.isSome_some, wp_bind]
    refine wp_readBytes (fun _ => trivial) fun f₁ hf₁ => ?_
    refine wp_statMode (fun _ => trivial) fun f₂ hf₂ => ⟨?_, rfl⟩
    obtain rfl : f = f₁ := Option.some.inj (hp.symm.trans hf₁)
    obtain rfl : f = f₂ := Option.some.inj (hp.symm.trans hf₂)
    rfl

theorem captureFiles_spec (ps : List Path) (w : World) :
    wp env (captureFiles ps) (fun files _ => files = ps.map fun p => (p, w.host.files p))
      (fun _ _ => True) w := by
  induction ps generalizing w with
  | nil => rfl
  | cons p ps ih =>
    simp only [captureFiles, wp_bind]
    refine wp_mono (captureFile_spec p w) (fun f w₁ h₁ => ?_) fun _ _ _ => trivial
    obtain ⟨rfl, hfiles⟩ := h₁
    refine wp_mono (ih w₁) (fun rest w₂ h₂ => ?_) fun _ _ _ => trivial
    rw [h₂, hfiles]
    rfl

theorem capture_files (w : World) :
    wp env captureConfigTransaction
      (fun snapshot _ => snapshot.files = Path.transactionPaths.map fun p => (p, w.host.files p))
      (fun _ _ => True) w := by
  simp only [captureConfigTransaction, wp_bind]
  refine wp_mono (captureFiles_spec _ w) (fun files w₁ h => ?_) fun _ _ _ => trivial
  refine wp_getStatus (fun _ _ => trivial) (wp_getStatus (fun _ _ => trivial) ?_)
  exact wp_getStatus (fun _ _ => trivial) h

/-- The managed files, and scratch files beside them. -/
def Touchable (p : Path) : Prop := p ∈ Path.transactionPaths ∨ p.isScratch

def touching : Permit := ⟨Touchable, fun _ => True, fun _ => True⟩

theorem touching_releases : touching.Releases where
  stage := fun _ => .inr rfl
  destination := fun t => .inl (by cases t <;> decide)
  services := trivial
  account := fun _ _ => trivial

theorem applyGeneration_frame (lib : Library) (config : Config) (changed : Finset Key)
    (snapshot : Snapshot) :
    Stays env (SameOutside Touchable) (applyGeneration lib config changed snapshot) :=
  (respects_sameOutside Touchable).applyGeneration touching_releases (fun _ => trivial) (fun _ hp => .inl hp)
    (.inr rfl) lib config changed snapshot

theorem applyGeneration_accounts (lib : Library) (config : Config) (changed : Finset Key)
    (snapshot : Snapshot) :
    Stays env (Accounts (isReleaseAttempt ·)) (applyGeneration lib config changed snapshot) :=
  (respects_accounts _).applyGeneration ⟨fun _ => trivial, fun _ => trivial, trivial, fun _ h => h⟩
    (fun _ => trivial) (fun _ _ => trivial) trivial lib config changed snapshot

theorem temporary_ne (p : Path) : p ≠ .temporary p := by
  intro h
  have hsize := congrArg sizeOf h
  simp at hsize

theorem restoreFile_spec (p : Path) (f : Option FileState) (w : World) :
    wp env (restoreFile p f) (fun _ w' => w'.host.files p = f) (fun _ _ => True) w := by
  cases f with
  | none => exact wp_unlink (fun _ => trivial) (setFile_files_self _ _ _ _)
  | some f =>
    simp only [restoreFile, wp_bind, wp_onRaise]
    refine wp_perform (fun _ _ => trivial) fun _ => wp_mkstemp (fun _ => trivial) ?_
    have cleanup : ∀ w' : World, wp env (unlink (.temporary p)) (fun _ _ => True)
        (fun _ _ => True) w' := fun w' => wp_trivial _ w'
    refine wp_writeFile (fun _ _ => cleanup _) (wp_chmod (fun _ _ => cleanup _) fun g hg => ?_)
    refine wp_replace (fun _ _ => cleanup _) fun g' hg' => ?_
    rw [setFile_files_self] at hg hg'
    rw [setFile_files_ne (temporary_ne p), setFile_files_self, ← hg', ← Option.some.inj hg]

/-- A step of the rollback whose failure the rollback itself catches. -/
def isCaught : Attempt → Bool
  | .stop _ | .restore _ | .daemonReload | .start _ | .readiness _ => true
  | _ => false

section Steps

variable {P : Permit} {R : World → World → Prop} [Std.Refl R] [IsTrans World R]

theorem stopOperations_keep (hR : Respects R P) (hs : ∀ s, P.services s) :
    ∀ op ∈ stopOperations, isCaught op.1 ∧ Stays env R op.2 := by
  intro op hop
  simp only [stopOperations, List.mem_cons, List.not_mem_nil, or_false] at hop
  rcases hop with rfl | rfl | rfl <;> exact ⟨rfl, hR.systemctl (hs _) _⟩

theorem restoreOperations_keep (hR : Respects R P) {files : List (Path × Option FileState)}
    (hfile : ∀ e ∈ files, P.file e.1 ∧ P.file (.temporary e.1)) :
    ∀ op ∈ restoreOperations files, isCaught op.1 ∧ Stays env R op.2 := by
  intro op hop
  obtain ⟨e, he, rfl⟩ := List.mem_map.1 hop
  exact ⟨rfl, hR.restoreFile (hfile e he).1 (hfile e he).2 e.2⟩

theorem startOperations_keep (hR : Respects R P) (hs : ∀ s, P.services s) (running : Service → Bool) :
    ∀ op ∈ startOperations running, isCaught op.1 ∧ Stays env R op.2 := by
  intro op hop
  simp only [startOperations, List.mem_append, List.mem_singleton, List.mem_ite_nil_right] at hop
  rcases hop with ((rfl | ⟨-, rfl⟩) | ⟨-, rfl⟩) | ⟨-, rfl⟩
  · exact ⟨rfl, hR.daemonReload⟩
  all_goals exact ⟨rfl, hR.systemctl (hs _) _⟩

end Steps

/-- Steps that all stay within `R`, taken one after the other. -/
theorem attemptAll_keep {P : Permit} {R : World → World → Prop} [Std.Refl R] [IsTrans World R]
    (hR : Respects R P) (ha : ∀ l, isCaught l → P.account l) {ops : List (Attempt × Proc Unit)}
    (h : ∀ op ∈ ops, isCaught op.1 ∧ Stays env R op.2) : Stays env R (attemptAll ops) :=
  hR.attemptAll fun op hop => ⟨ha _ (h op hop).1, (h op hop).2⟩

/-- A rollback step of a file that did not put it back is on the account. -/
def RestoredUnlessFailed (files : List (Path × Option FileState)) (w : World) : Prop :=
  ∀ e ∈ files, w.host.files e.1 = e.2 ∨ ∃ m, (Attempt.restore e.1, some m) ∈ w.host.attempts

theorem restoreOperations_spec (files : List (Path × Option FileState))
    (hnd : (files.map Prod.fst).Nodup) (hscratch : ∀ e ∈ files, e.1.isScratch = false) (w : World) :
    wp env (attemptAll (restoreOperations files)) (fun _ w' => RestoredUnlessFailed files w')
      (fun _ _ => True) w := by
  induction files generalizing w with
  | nil => exact fun e he => absurd he (by simp)
  | cons e files ih =>
    obtain ⟨hnew, hnd'⟩ := List.nodup_cons.1 hnd
    have hout : ¬ (e.1 ∈ files.map Prod.fst ∨ e.1.isScratch) := by
      simp only [hscratch e (by simp), Bool.false_eq_true, or_false]
      exact hnew
    -- the steps after `e` keep what `e` achieved, or the note that it failed
    have rest : ∀ w₁ : World, (w₁.host.files e.1 = e.2 ∨
        ∃ m, (Attempt.restore e.1, some m) ∈ w₁.host.attempts) →
        wp env (attemptAll (restoreOperations files))
          (fun _ w' => RestoredUnlessFailed (e :: files) w') (fun _ _ => True) w₁ := by
      intro w₁ h₁
      have hrest := ih hnd' (fun e' he' => hscratch e' (List.mem_cons_of_mem _ he')) w₁
      have frame : Stays env (SameOutside fun p => p ∈ files.map Prod.fst ∨ p.isScratch)
          (attemptAll (restoreOperations files)) :=
        attemptAll_keep (respects_sameOutside _) (fun _ _ => trivial) <|
          restoreOperations_keep (respects_sameOutside _) fun e he =>
            ⟨.inl (List.mem_map_of_mem he), .inr rfl⟩
      have grows : Stays env (Accounts fun _ => True) (attemptAll (restoreOperations files)) :=
        attemptAll_keep (respects_accounts _) (fun _ _ => trivial) <|
          restoreOperations_keep (respects_accounts _) fun _ _ => ⟨trivial, trivial⟩
      refine wp_mono (wp_and hrest (wp_and (frame w₁) (grows w₁))) (fun _ w' h => ?_)
        fun _ _ _ => trivial
      obtain ⟨hdone, hframe, entries, hentries, -⟩ := h
      intro e' he'
      rcases List.mem_cons.1 he' with rfl | he'
      · refine h₁.imp (fun hf => ?_) fun ⟨m, hm⟩ => ⟨m, ?_⟩
        · rw [(hframe e'.1 hout).1, hf]
        · rw [hentries]
          exact List.mem_append_right _ hm
      · exact hdone e' he'
    rw [restoreOperations, List.map_cons, wp_attemptAll_cons]
    refine wp_mono (wp_and (restoreFile_spec e.1 e.2 w) (wp_trivial _ w)) (fun _ w₁ h₁ => ?_)
      fun exc w₁ _ => ?_
    · exact rest _ (.inl h₁.1)
    · exact wp_mono (rest _ (.inr ⟨exc.text, by simp [Host.noted]⟩)) (fun _ _ h => h) fun _ _ h => h

def failedText (e : Attempt × Option Str) : Option Str := e.2.map (failureText e.1)

/-- `errors` are the failures among the entries made since `w`, in order. -/
def Reported (w : World) (errors : List Str) (w' : World) : Prop :=
  ∃ entries : List (Attempt × Option Str),
    w'.host.attempts = entries.reverse ++ w.host.attempts ∧ (∀ e ∈ entries, isCaught e.1) ∧
      errors = entries.filterMap failedText

theorem Reported.append {w w₁ w₂ : World} {errors more : List Str} (h : Reported w errors w₁)
    (h' : Reported w₁ more w₂) : Reported w (errors ++ more) w₂ := by
  obtain ⟨es, hes, hc, rfl⟩ := h
  obtain ⟨es', hes', hc', rfl⟩ := h'
  refine ⟨es ++ es', by simp [hes, hes'], ?_, by simp⟩
  intro e he
  exact (List.mem_append.1 he).elim (hc e) (hc' e)

theorem Reported.single {w w' : World} {l : Attempt} {r : Option Str} (hl : isCaught l)
    (h : w'.host.attempts = (l, r) :: w.host.attempts) :
    Reported w (r.map (failureText l)).toList w' := by
  refine ⟨[(l, r)], by simp [h], by simpa using hl, ?_⟩
  cases r <;> simp [failedText]

/-- Steps that make no entries of their own. -/
abbrev KeepsAccount (env : Environment) {α : Type} (m : Proc α) : Prop :=
  Stays env (Accounts fun _ => False) m

theorem attempts_eq_of_accounts {w w' : World} (h : Accounts (fun _ => False) w w') :
    w'.host.attempts = w.host.attempts := by
  obtain ⟨entries, heq, hnone⟩ := h
  obtain rfl : entries = [] := List.eq_nil_iff_forall_not_mem.2 hnone
  exact heq

theorem attemptAll_reported (ops : List (Attempt × Proc Unit))
    (h : ∀ op ∈ ops, isCaught op.1 ∧ KeepsAccount env op.2) (w : World) :
    wp env (attemptAll ops) (Reported w) (fun _ _ => False) w := by
  induction ops generalizing w with
  | nil => exact ⟨[], by simp⟩
  | cons op ops ih =>
    obtain ⟨l, m⟩ := op
    obtain ⟨hl, hm⟩ := h (l, m) (by simp)
    have hrest := fun w => ih (fun op hop => h op (List.mem_cons_of_mem _ hop)) w
    rw [wp_attemptAll_cons]
    refine wp_mono (hm w) (fun _ w₁ h₁ => ?_) fun exc w₁ h₁ => ?_
    · have hone : Reported w [] ⟨w₁.history, w₁.host.noted l none⟩ :=
        .single (r := none) hl (by rw [Host.noted, attempts_eq_of_accounts h₁])
      exact wp_mono (hrest _) (fun _ _ hmore => hone.append hmore) fun _ _ h => h
    · have hone : Reported w [failureText l exc.text]
          ⟨w₁.history, w₁.host.noted l (some exc.text)⟩ :=
        .single (r := some exc.text) hl (by rw [Host.noted, attempts_eq_of_accounts h₁])
      exact wp_mono (hrest _) (fun _ _ hmore => hone.append hmore) fun _ _ h => h

/-- A readiness check raised where nothing catches it. -/
def ReadinessRaised (w : World) : Prop :=
  ∃ s m, (Attempt.uncaught s, some m) ∈ w.host.attempts

theorem serviceRunning_raises (s : Service) (n : ℕ) (w : World) :
    wp env (serviceRunning s n) (fun _ _ => True) (fun e _ => ∃ m, e = .raised m) w := by
  induction n generalizing w with
  | zero => trivial
  | succ n ih =>
    rw [serviceRunning, wp_bind]
    refine wp_getStatus (fun m _ => ⟨m, rfl⟩) ?_
    rw [wp_ite]
    split
    · trivial
    · exact ih _

theorem nodeReadinessErrors_spec (previous : Config) (w : World) :
    wp env (nodeReadinessErrors previous) (Reported w) (fun _ _ => False) w := by
  have hkeeps : KeepsAccount env (waitForRunningVersion previous) :=
    (respects_accounts fun _ => False).waitForRunningVersion previous
  simp only [nodeReadinessErrors, readinessErrors, wp_bind, wp_tryCatch, wp_note, wp_pure]
  refine wp_mono (hkeeps w) (fun _ w₁ h₁ => ?_) fun _ w₁ h₁ => ?_
  · exact .single rfl (by rw [Host.noted, attempts_eq_of_accounts h₁])
  · exact .single rfl (by rw [Host.noted, attempts_eq_of_accounts h₁])

theorem serviceReadinessErrors_spec (s : Service) (w : World) :
    wp env (serviceReadinessErrors s) (Reported w)
      (fun e w' => ReadinessRaised w' ∧ ∃ m, e = .raised m) w := by
  have hkeeps : KeepsAccount env (serviceRunning s 4) :=
    (respects_accounts fun _ => False).serviceRunning trivial 4
  simp only [serviceReadinessErrors, readinessErrors, wp_bind, wp_tryCatch, wp_note, wp_pure,
    wp_throw]
  refine wp_mono (wp_and (hkeeps w) (serviceRunning_raises s 4 w)) (fun up w₁ h₁ => ?_)
    fun exc w₁ h₁ => ⟨⟨s, exc.text, by simp [Host.noted]⟩, h₁.2⟩
  exact .single rfl (by rw [Host.noted, attempts_eq_of_accounts h₁.1])

theorem restoredErrors_spec (snapshot : Snapshot) (previous : Config) (s : Service) (w : World) :
    wp env (restoredErrors snapshot previous s) (Reported w)
      (fun e w' => ReadinessRaised w' ∧ ∃ m, e = .raised m) w := by
  rw [restoredErrors.eq_def, wp_ite]
  split
  · cases s with
    | node => exact wp_mono (nodeReadinessErrors_spec previous w) (fun _ _ h => h) fun _ _ h => h.elim
    | monitor | rpcProxy => exact serviceReadinessErrors_spec _ w
  · exact ⟨[], by simp⟩

theorem restoredServiceErrors_spec (snapshot : Snapshot) (previous : Config) (w : World) :
    wp env (restoredServiceErrors snapshot previous) (Reported w)
      (fun e w' => ReadinessRaised w' ∧ ∃ m, e = .raised m) w := by
  simp only [restoredServiceErrors, wp_bind, wp_pure]
  refine wp_mono (restoredErrors_spec snapshot previous .node w) (fun _ w₁ h₁ => ?_) fun _ _ h => h
  refine wp_mono (restoredErrors_spec snapshot previous .monitor w₁) (fun _ w₂ h₂ => ?_)
    fun _ _ h => h
  refine wp_mono (restoredErrors_spec snapshot previous .rpcProxy w₂) (fun _ w₃ h₃ => ?_)
    fun _ _ h => h
  exact (h₁.append h₂).append h₃

/-- Every step of the rollback is guarded and stays within what restoring may touch. -/
theorem rollbackOperations_keep {snapshot : Snapshot} {P : Permit} {R : World → World → Prop}
    [Std.Refl R] [IsTrans World R] (hR : Respects R P) (hs : ∀ s, P.services s)
    (hfile : ∀ e ∈ snapshot.files, P.file e.1 ∧ P.file (.temporary e.1)) :
    ∀ op ∈ rollbackOperations snapshot, isCaught op.1 ∧ Stays env R op.2 := by
  intro op hop
  simp only [rollbackOperations, List.mem_append] at hop
  rcases hop with hop | hop | hop
  · exact stopOperations_keep hR hs op hop
  · exact restoreOperations_keep hR hfile op hop
  · exact startOperations_keep hR hs _ op hop

theorem RestoredUnlessFailed.mono {files : List (Path × Option FileState)} {w w' : World}
    (h : RestoredUnlessFailed files w) (hf : SameOutside (fun _ => False) w w')
    (ha : Accounts (fun _ => True) w w') : RestoredUnlessFailed files w' := by
  obtain ⟨entries, heq, -⟩ := ha
  intro e he
  refine (h e he).imp (fun hfile => ?_) fun ⟨m, hm⟩ => ⟨m, ?_⟩
  · rw [(hf e.1 id).1, hfile]
  · rw [heq]
    exact List.mem_append_right _ hm

theorem rollbackOperations_restore {snapshot : Snapshot} {before : Path → Option FileState}
    (hfiles : snapshot.files = Path.transactionPaths.map fun p => (p, before p)) (w : World) :
    wp env (attemptAll (rollbackOperations snapshot))
      (fun _ w' => RestoredUnlessFailed snapshot.files w') (fun _ _ => True) w := by
  have hpaths : snapshot.files.map Prod.fst = Path.transactionPaths := by
    rw [hfiles, List.map_map]
    exact List.map_id _
  have hscratch : ∀ e ∈ snapshot.files, e.1.isScratch = false := by
    intro e he
    have hmem : e.1 ∈ Path.transactionPaths := hpaths ▸ List.mem_map_of_mem he
    revert hmem
    generalize e.1 = p
    revert p
    decide
  have frame : Stays env (SameOutside fun _ => False)
      (attemptAll (startOperations snapshot.running)) :=
    attemptAll_keep (respects_sameOutside _) (fun _ _ => trivial) <|
      startOperations_keep (respects_sameOutside _) (fun _ => trivial) _
  have grows : Stays env (Accounts fun _ => True) (attemptAll (startOperations snapshot.running)) :=
    attemptAll_keep (respects_accounts _) (fun _ _ => trivial) <|
      startOperations_keep (respects_accounts _) (fun _ => trivial) _
  rw [rollbackOperations, wp_attemptAll_append]
  refine wp_mono (wp_trivial _ w) (fun _ w₁ _ => ?_) fun _ _ _ => trivial
  rw [wp_attemptAll_append]
  refine wp_mono (restoreOperations_spec snapshot.files (hpaths ▸ by decide) hscratch w₁)
    (fun _ w₂ h₂ => ?_) fun _ _ _ => trivial
  exact wp_mono (wp_and (frame w₂) (grows w₂)) (fun _ w₃ h₃ => h₂.mono h₃.1 h₃.2)
    fun _ _ _ => trivial

def rollbackError (errors : List Str) (cause : Exc) : Exc :=
  .runtimeError ("config rollback failed (".toList ++ "; ".toList.intercalate errors ++ [')'])
    (some cause)

theorem rollbackConfigTransaction_spec {snapshot : Snapshot} {before : Path → Option FileState}
    (hfiles : snapshot.files = Path.transactionPaths.map fun p => (p, before p)) (cause : Exc)
    (previous : Config) (w : World) :
    wp env (rollbackConfigTransaction snapshot cause previous)
      (fun _ w' => RestoredUnlessFailed snapshot.files w' ∧ Reported w [] w')
      (fun e w' => RestoredUnlessFailed snapshot.files w' ∧
        ((∃ errors ≠ [], Reported w errors w' ∧ e = rollbackError errors cause) ∨
          (ReadinessRaised w' ∧ ∃ m, e = .raised m))) w := by
  have caught : ∀ op ∈ rollbackOperations snapshot, isCaught op.1 ∧ KeepsAccount env op.2 :=
    rollbackOperations_keep (respects_accounts _) (fun _ => trivial) fun _ _ => ⟨trivial, trivial⟩
  have frame : Stays env (SameOutside fun _ => False) (restoredServiceErrors snapshot previous) :=
    (respects_sameOutside _).restoredServiceErrors (fun _ => trivial) (fun _ => ⟨trivial, trivial⟩) _ _
  have grows : Stays env (Accounts fun _ => True) (restoredServiceErrors snapshot previous) :=
    (respects_accounts _).restoredServiceErrors (fun _ => trivial) (fun _ => ⟨trivial, trivial⟩) _ _
  simp only [rollbackConfigTransaction, wp_bind]
  refine wp_mono (wp_and (rollbackOperations_restore hfiles w) (attemptAll_reported _ caught w))
    (fun failed w₁ h₁ => ?_) fun _ _ h => h.2.elim
  refine wp_mono (wp_and (wp_and (frame w₁) (grows w₁))
    (restoredServiceErrors_spec snapshot previous w₁)) (fun notReady w₂ h₂ => ?_)
    fun e w₂ h₂ => ⟨h₁.1.mono h₂.1.1 h₂.1.2, .inr h₂.2⟩
  have hrestored := h₁.1.mono h₂.1.1 h₂.1.2
  have hreported := h₁.2.append h₂.2
  rw [wp_runIf]
  split
  · rename_i hne
    exact ⟨hrestored, .inl ⟨_, hne, hreported, rfl⟩⟩
  · rename_i hnil
    rw [not_ne_iff.1 hnil] at hreported
    exact ⟨hrestored, hreported⟩

theorem rollbackConfigTransaction_frame {snapshot : Snapshot}
    (hfile : ∀ e ∈ snapshot.files, e.1 ∈ Path.transactionPaths) (cause : Exc) (previous : Config) :
    Stays env (SameOutside Touchable) (rollbackConfigTransaction snapshot cause previous) := by
  have hR := respects_sameOutside Touchable
  have operations : Stays env (SameOutside Touchable) (attemptAll (rollbackOperations snapshot)) :=
    attemptAll_keep hR (fun _ _ => trivial) <|
      rollbackOperations_keep hR (fun _ => trivial) fun e he => ⟨.inl (hfile e he), .inr rfl⟩
  exact operations.bind fun _ =>
    (hR.restoredServiceErrors (fun _ => trivial) (fun _ => ⟨trivial, trivial⟩) _ _).bind fun _ =>
    .runIf fun _ => .throw _

/-- The transaction without its rollback: what it raises is the original exception. -/
def unguarded (lib : Library) (config : Config) (changed : Finset Key) : Proc Unit := do
  let snapshot ← captureConfigTransaction
  applyGeneration lib config changed snapshot

/-- The failed rollback operations and readiness checks, in order. -/
def failures (w : World) : List Str :=
  (w.host.attempts.reverse.filter fun e => !isReleaseAttempt e.1).filterMap failedText

/-- What is undone in any case. -/
structure Undone (w w' : World) : Prop where
  files : ∀ p ∈ Path.transactionPaths, (∀ m, (Attempt.restore p, some m) ∉ w'.host.attempts) →
    w'.host.files p = w.host.files p
  others : ∀ p, ¬ Touchable p → w'.host.files p = w.host.files p

/-- What a transaction that raised `e` leaves behind. -/
structure RolledBack (env : Environment) (lib : Library) (config : Config) (changed : Finset Key)
    (w : World) (e : Exc) (w' : World) : Prop extends Undone w w' where
  exception : ∃ cause w₁, unguarded lib config changed env w = .error cause w₁ ∧
    e = if failures w' = [] then cause else rollbackError (failures w') cause

theorem failures_of_reported {w w' : World} {errors : List Str}
    (hw : ∀ e ∈ w.host.attempts, isReleaseAttempt e.1) (h : Reported w errors w') :
    failures w' = errors ∧ ¬ ReadinessRaised w' := by
  obtain ⟨entries, heq, hcaught, rfl⟩ := h
  have hold : ∀ e ∈ w.host.attempts.reverse, ¬ (!isReleaseAttempt e.1) = true := by
    intro e he
    simp [hw e (List.mem_reverse.1 he)]
  have hnew : ∀ e ∈ entries, (!isReleaseAttempt e.1) = true := by
    intro e he
    have hc := hcaught e he
    cases hl : e.1 <;> simp_all [isCaught, isReleaseAttempt]
  refine ⟨?_, ?_⟩
  · rw [failures, heq, List.reverse_append, List.reverse_reverse, List.filter_append,
      List.filter_eq_nil_iff.2 hold, List.filter_eq_self.2 hnew, List.nil_append]
  · rintro ⟨s, m, hm⟩
    rw [heq] at hm
    rcases List.mem_append.1 hm with hm | hm
    · exact absurd (hcaught _ (List.mem_reverse.1 hm)) (by simp [isCaught])
    · exact absurd (hw _ hm) (by simp [isReleaseAttempt])

theorem undone_of_rollback {snapshot : Snapshot} {w w₂ w' : World}
    (hfiles : snapshot.files = Path.transactionPaths.map fun p => (p, w.host.files p))
    (hframe : SameOutside Touchable w w₂) (hframe' : SameOutside Touchable w₂ w')
    (hrestored : RestoredUnlessFailed snapshot.files w') : Undone w w' := by
  refine ⟨fun p hp hok => ?_, fun p hp => ?_⟩
  · have hmem : (p, w.host.files p) ∈ snapshot.files := hfiles ▸ List.mem_map_of_mem hp
    refine (hrestored _ hmem).resolve_right ?_
    rintro ⟨m, hm⟩
    exact hok m hm
  · rw [(hframe' p hp).1, (hframe p hp).1]

/-- How a transaction raises: everything is undone, and unless an unguarded readiness
check raised, the exception is the original one or names what failed after it. -/
theorem applyConfigTransaction_raises (lib : Library) (config previous : Config)
    (changed : Finset Key) (hw : w.host.attempts = []) :
    wp env (applyConfigTransaction lib config previous changed) (fun _ _ => True)
      (fun e w' => Undone w w' ∧
        ((¬ ReadinessRaised w' ∧ ∃ cause w₁, unguarded lib config changed env w = .error cause w₁ ∧
          e = if failures w' = [] then cause else rollbackError (failures w') cause) ∨
          (ReadinessRaised w' ∧ ∃ m, e = .raised m))) w := by
  have captureFrame : Stays env (SameOutside fun _ => False) captureConfigTransaction :=
    (respects_sameOutside _).captureConfigTransaction fun _ => trivial
  have captureKeeps : KeepsAccount env captureConfigTransaction :=
    (respects_accounts _).captureConfigTransaction fun _ => trivial
  rw [applyConfigTransaction, wp_runIf]
  split
  swap
  · trivial
  rw [wp_bind]
  refine wp_mono (wp_and (wp_and (captureFrame w) (captureKeeps w))
    (wp_and (capture_files w) (wp_run _ w))) (fun snapshot w₁ h₁ => ?_) fun e w' h => ?_
  · obtain ⟨⟨hf₁, ha₁⟩, hfiles, hrun₁⟩ := h₁
    have hw₁ : w₁.host.attempts = [] := (attempts_eq_of_accounts ha₁).trans hw
    have hsnap : ∀ e ∈ snapshot.files, e.1 ∈ Path.transactionPaths := by
      intro e he
      rw [hfiles] at he
      obtain ⟨p, hp, rfl⟩ := List.mem_map.1 he
      exact hp
    simp only [wp_tryCatch, wp_bind, wp_throw]
    refine wp_mono (wp_and (wp_and (applyGeneration_frame lib config changed snapshot w₁)
      (applyGeneration_accounts lib config changed snapshot w₁)) (wp_run _ w₁))
      (fun _ _ _ => trivial) fun cause w₂ h₂ => ?_
    obtain ⟨⟨hf₂, entries, hentries, hrelease⟩, hrun₂⟩ := h₂
    have horiginal : unguarded lib config changed env w = .error cause w₂ := by
      rw [unguarded, bind_run_ok hrun₁, hrun₂]
    have hw₂ : ∀ e ∈ w₂.host.attempts, isReleaseAttempt e.1 := by
      rw [hentries, hw₁, List.append_nil]
      exact hrelease
    have hframe₂ : SameOutside Touchable w w₂ := fun p hp =>
      ⟨by rw [(hf₂ p hp).1, (hf₁ p id).1], by rw [(hf₂ p hp).2, (hf₁ p id).2]⟩
    refine wp_mono (wp_and (rollbackConfigTransaction_frame hsnap cause previous w₂)
      (rollbackConfigTransaction_spec hfiles cause previous w₂)) (fun _ w' h => ?_)
      fun e w' h => ?_
    · obtain ⟨hframe', hrestored, hreported⟩ := h
      obtain ⟨hnil, hready⟩ := failures_of_reported hw₂ hreported
      refine ⟨undone_of_rollback hfiles hframe₂ hframe' hrestored, .inl ⟨hready, cause, w₂, ?_⟩⟩
      exact ⟨horiginal, by rw [if_pos hnil]⟩
    · obtain ⟨hframe', hrestored, hhow⟩ := h
      refine ⟨undone_of_rollback hfiles hframe₂ hframe' hrestored, ?_⟩
      rcases hhow with ⟨errors, hne, hreported, rfl⟩ | hraised
      · obtain ⟨hfailed, hready⟩ := failures_of_reported hw₂ hreported
        refine .inl ⟨hready, cause, w₂, horiginal, ?_⟩
        rw [hfailed, if_neg hne]
      · exact .inr hraised
  · obtain ⟨⟨hf, ha⟩, -, hrun⟩ := h
    have hattempts : w'.host.attempts = [] := (attempts_eq_of_accounts ha).trans hw
    refine ⟨⟨fun p _ _ => (hf p id).1, fun p _ => (hf p id).1⟩, .inl ⟨?_, e, w', ?_, ?_⟩⟩
    · rintro ⟨s, m, hm⟩
      rw [hattempts] at hm
      exact absurd hm (by simp)
    · rw [unguarded, bind_run_error hrun]
    · simp [failures, hattempts]

theorem failures_ne_nil {w : World} (h : ReadinessRaised w) : failures w ≠ [] := by
  obtain ⟨s, m, hm⟩ := h
  refine List.ne_nil_of_mem (a := failureText (.uncaught s) m) (List.mem_filterMap.2 ?_)
  exact ⟨_, List.mem_filter.2 ⟨List.mem_reverse.2 hm, rfl⟩, rfl⟩

/-- A failed transaction is rolled back as documented exactly when no readiness check of
the monitor or the proxy raises: the node's check is guarded, theirs is not. -/
theorem applyConfigTransaction_rolledBack_iff (lib : Library) (config previous : Config)
    (changed : Finset Key) {w w' : World} {e : Exc} (hw : w.host.attempts = [])
    (hres : applyConfigTransaction lib config previous changed env w = .error e w') :
    RolledBack env lib config changed w e w' ↔ ¬ ReadinessRaised w' := by
  have hraises := wp_of_error (applyConfigTransaction_raises lib config previous changed hw) hres
  obtain ⟨hundone, hhow⟩ := hraises
  rcases hhow with ⟨hready, hexception⟩ | ⟨hready, m, rfl⟩
  · exact ⟨fun _ => hready, fun _ => ⟨hundone, hexception⟩⟩
  · refine ⟨fun hback => ?_, fun h => absurd hready h⟩
    obtain ⟨cause, w₁, -, heq⟩ := hback.exception
    rw [if_neg (failures_ne_nil hready)] at heq
    exact absurd heq (by simp [rollbackError])

/-- The monitor runs, and nothing else is there. -/
def monitorUp : World :=
  ⟨[], { files := fun _ => none, running := fun s => decide (s = .monitor) }⟩

/-- Only the first write of the generation fails. -/
def diskFull : Environment := fun _ op =>
  match op with
  | .write (.env .node) => { raises := some "No space left on device".toList }
  | _ => {}

/-- After the reload of the rollback, asking for the monitor's status fails too. -/
def statusFails : Environment := fun hist op =>
  match op with
  | .write (.env .node) => { raises := some "No space left on device".toList }
  | .status .monitor =>
    if .daemonReload ∈ hist then { raises := some "Cannot allocate memory".toList } else {}
  | _ => {}

def unset : Config := fun _ => .none

def userSet : Config := Function.update unset .rpcUser (.str "alice".toList)

/-- Whether a run raised, and an unguarded readiness check with it. -/
def readinessEscapes : EStateM.Result Exc World Unit → Option Bool
  | .ok _ _ => none
  | .error _ w' => some (w'.host.attempts.any fun e => match e with
      | (.uncaught _, some _) => true
      | _ => false)

theorem readinessEscapes_error {r : EStateM.Result Exc World Unit} {b : Bool}
    (h : readinessEscapes r = some b) :
    ∃ e w', r = .error e w' ∧ (ReadinessRaised w' ↔ b = true) := by
  cases r with
  | ok _ _ => simp [readinessEscapes] at h
  | error e w' =>
    refine ⟨e, w', rfl, ?_⟩
    obtain rfl := Option.some.inj h
    rw [List.any_eq_true]
    constructor
    · rintro ⟨s, m, hm⟩
      exact ⟨_, hm, rfl⟩
    · rintro ⟨⟨l, r⟩, hmem, hlr⟩
      cases l <;> cases r <;> simp at hlr
      exact ⟨_, _, hmem⟩

/-- The write that fails is rolled back. -/
theorem applyConfigTransaction_rolledBack_diskFull : ∃ e w',
    applyConfigTransaction ReleaseAtomicity.emptyMirror userSet unset {.rpcUser} diskFull monitorUp =
      .error e w' ∧
    RolledBack diskFull ReleaseAtomicity.emptyMirror userSet {.rpcUser} monitorUp e w' := by
  have hrun : readinessEscapes (applyConfigTransaction ReleaseAtomicity.emptyMirror userSet unset
    {.rpcUser} diskFull monitorUp) = some false := by decide +kernel
  obtain ⟨e, w', hres, hready⟩ := readinessEscapes_error hrun
  refine ⟨e, w', hres, ?_⟩
  exact (applyConfigTransaction_rolledBack_iff _ _ _ _ rfl hres).2 (by simp [hready])

/-- With the monitor's check raising as well, its exception replaces the original one. -/
theorem applyConfigTransaction_statusFails : ¬ ∀ (env : Environment) (lib : Library)
    (config previous : Config) (changed : Finset Key) (w w' : World) (e : Exc),
    w.host.attempts = [] → applyConfigTransaction lib config previous changed env w = .error e w' →
    RolledBack env lib config changed w e w' := by
  intro h
  have hrun : readinessEscapes (applyConfigTransaction ReleaseAtomicity.emptyMirror userSet unset
    {.rpcUser} statusFails monitorUp) = some true := by decide +kernel
  obtain ⟨e, w', hres, hready⟩ := readinessEscapes_error hrun
  have hraises := wp_of_error (applyConfigTransaction_raises _ _ _ _ rfl) hres
  obtain ⟨m, rfl⟩ := (hraises.2.resolve_left fun hn => hn.1 (by simp [hready])).2
  obtain ⟨cause, w₁, -, heq⟩ := (h _ _ _ _ _ _ _ _ rfl hres).exception
  rw [if_neg (failures_ne_nil (by simp [hready]))] at heq
  exact absurd heq (by simp [rollbackError])

end BitcoinRpcOperator.TransactionAtomicity
