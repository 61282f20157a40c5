import BitcoinRpcOperator.HostSteps

/-!
# What a procedure can change at all

What a group of procedures is permitted to do, and relations that everything
permitted respects. Each procedure gets one rule, used below at several relations:
which files can differ, and that services and account are left alone.
-/

namespace BitcoinRpcOperator.HostFrames
open Text ServiceConfiguration FallibleProcedures HostSystem ReleaseInstaller ConfigTransaction
open HostSteps

variable {env : Environment} {α : Type} {w : World}


/-- An operation that neither acts on a service nor asks for its status. -/
def isQuiet : Op → Bool
  | .systemctl _ _ | .status _ => false
  | _ => true

structure Permit where
  file : Path → Prop
  /-- Acting on a service and asking for its status. -/
  services : Service → Prop
  /-- Accounting for recovery steps. -/
  account : Attempt → Prop

/-- The recovery steps of `bitcoin.py`; the others are those of a transaction. -/
def isReleaseAttempt : Attempt → Bool
  | .restartAfterStop | .stopReplacement | .restoreBinaries | .startPrevious => true
  | _ => false

/-- What `install_release` needs to be permitted. -/
structure Permit.Releases (P : Permit) : Prop where
  stage : ∀ n, P.file (.stage n)
  destination : ∀ t : Tool, P.file t.destination
  services : P.services .node
  account : ∀ l, isReleaseAttempt l → P.account l

/-- Every permitted elementary change stays within `R`. -/
structure Respects (R : World → World → Prop) (P : Permit) : Prop where
  asked : ∀ w o, (isQuiet o ∨ ∃ s, P.services s) → R w ⟨o :: w.history, w.host⟩
  filed : ∀ w p f, P.file p → R w ⟨w.history, w.host.setFile p f w.history.length⟩
  cleared : (∀ n, P.file (.stage n)) → ∀ w, R w ⟨w.history, w.host.clearStage⟩
  polled : ∀ w u p, R w ⟨w.history, { w.host with answered := some (w.history.length, u, p) }⟩
  disturbed : ∀ s, P.services s → ∀ w r, R w ⟨w.history, { w.host with running := r }⟩
  commanded : ∀ s, P.services s → ∀ w v, R w ⟨w.history, w.host.systemctl v s w.history.length⟩
  noted : ∀ w l r, P.account l → R w ⟨w.history, w.host.noted l r⟩

/-- What `_swap_binaries` puts in its map: every backup is the tool's own. -/
def OwnBackups (backups : List (Tool × Option Path)) : Prop :=
  ∀ e ∈ backups, ∀ b, e.2 = some b → b = e.1.backup

theorem ownBackups_append {backups : List (Tool × Option Path)} (h : OwnBackups backups)
    {t : Tool} {hst h' : Host} {b : Option Path} (hb : MovedAside t hst b h') :
    OwnBackups (backups ++ [(t, b)]) := by
  intro e he p hp
  rcases List.mem_append.1 he with he | he
  · exact h e he p hp
  · obtain rfl := List.mem_singleton.1 he
    cases hb with
    | absent => cases hp
    | present => exact (Option.some.inj hp).symm

theorem swapBinary_ownBackups (t : Tool) {backups : List (Tool × Option Path)}
    (h : OwnBackups backups) (w : World) :
    wp env (swapBinary t backups) (fun r _ => OwnBackups r.1) (fun _ _ => True) w :=
  wp_swapBinary (fun _ _ => h) (fun _ _ _ _ hb => ownBackups_append h hb)
    fun _ _ _ _ _ hb _ => ownBackups_append h hb

theorem swapBinaries_ownBackups (ts : List Tool) {backups : List (Tool × Option Path)}
    (h : OwnBackups backups) (w : World) :
    wp env (swapBinaries ts backups) (fun r _ => OwnBackups r.1) (fun _ _ => True) w := by
  induction ts generalizing backups w with
  | nil => exact h
  | cons t ts ih =>
    rw [swapBinaries, wp_bind]
    refine wp_mono (swapBinary_ownBackups t h w) (fun r w' hr => ?_) fun _ _ _ => trivial
    obtain ⟨backups', failed⟩ := r
    cases failed with
    | some exc => exact hr
    | none => exact ih hr w'

namespace Respects

variable {R : World → World → Prop} [Std.Refl R] [IsTrans World R] {P : Permit}

omit [Std.Refl R] in
theorem external (hR : Respects R P) {op : Op} (ho : isQuiet op ∨ ∃ s, P.services s)
    {failed done : Answer → ℕ → Host → Host}
    (hf : ∀ a w, R w ⟨w.history, failed a w.history.length w.host⟩)
    (hd : ∀ a w, R w ⟨w.history, done a w.history.length w.host⟩) :
    Stays env R (external op failed done) := fun w =>
  wp_external (fun _ _ => trans_of R (hR.asked w op ho) (hf _ ⟨op :: w.history, w.host⟩))
    fun _ => trans_of R (hR.asked w op ho) (hd _ ⟨op :: w.history, w.host⟩)

theorem observe (hR : Respects R P) {op : Op} (ho : isQuiet op ∨ ∃ s, P.services s) :
    Stays env R (observe op) :=
  hR.external ho (fun _ w => refl_of R w) fun _ w => refl_of R w

theorem perform (hR : Respects R P) {op : Op} (ho : isQuiet op ∨ ∃ s, P.services s)
    {done : ℕ → Host → Host} (hd : ∀ w, R w ⟨w.history, done w.history.length w.host⟩) :
    Stays env R (perform op done) :=
  (hR.external ho (fun _ w => refl_of R w) fun _ w => hd w).bind fun _ => .pure _

/-- Setting up the machine stays within `R` if changes to unmanaged files do. -/
theorem setUp (hR : Respects R P) {op : Op} (ho : isQuiet op)
    (hothers : ∀ w f, R w ⟨w.history, w.host.setOthers f⟩) : Stays env R (setUp op) :=
  (hR.external (.inl ho) (fun a w => hothers w a.others) fun a w => hothers w a.others).bind fun _ => .pure _

omit [IsTrans World R] in
theorem fileAt (p : Path) : Stays env R (fileAt p) := fun w => by
  exact wp_fileAt (fun _ => refl_of R w) fun _ _ => refl_of R w

omit [IsTrans World R] in
theorem fileExists (p : Path) : Stays env R (fileExists p) := fun w => refl_of R w

theorem readBytes (hR : Respects R P) (p : Path) : Stays env R (readBytes p) :=
  (hR.observe (.inl rfl)).bind fun _ => (fileAt p).bind fun _ => .pure _

omit [IsTrans World R] in
theorem decoded (data : Bytes) : Stays env R (decoded data) := by
  rw [HostSystem.decoded]
  split
  · exact .throw _
  · exact .pure _

theorem readText (hR : Respects R P) (p : Path) : Stays env R (readText p) :=
  (hR.readBytes p).bind fun _ => decoded _

theorem statMode (hR : Respects R P) (p : Path) : Stays env R (statMode p) :=
  (hR.observe (.inl rfl)).bind fun _ => (fileAt p).bind fun _ => .pure _

theorem writeFile (hR : Respects R P) {p : Path} (hp : P.file p) (data : Bytes) :
    Stays env R (writeFile p data) :=
  (hR.external (.inl rfl) (fun _ w => hR.filed w p _ hp)
    fun _ w => hR.filed w p _ hp).bind fun _ => .pure _

theorem chmod (hR : Respects R P) {p : Path} (hp : P.file p) (mode : ℕ) :
    Stays env R (chmod p mode) :=
  (fileAt p).bind fun _ => hR.perform (.inl rfl) fun w => hR.filed w p _ hp

theorem unlink (hR : Respects R P) {p : Path} (hp : P.file p) : Stays env R (unlink p) :=
  hR.perform (.inl rfl) fun w => hR.filed w p _ hp

theorem replace (hR : Respects R P) {p q : Path} (hp : P.file p) (hq : P.file q) :
    Stays env R (replace p q) :=
  (fileAt p).bind fun _ => hR.perform (.inl rfl) fun w =>
    trans_of R (hR.filed w q _ hq) (hR.filed ⟨w.history, _⟩ p _ hp)

theorem mkstemp (hR : Respects R P) {p : Path} (hp : P.file (.temporary p)) :
    Stays env R (mkstemp p) :=
  (hR.perform (.inl rfl) fun w => hR.filed w _ _ hp).bind fun _ => .pure _

theorem mkdirParents (hR : Respects R P) (p : Path) : Stays env R (mkdirParents p) :=
  hR.perform (.inl rfl) fun w => refl_of R w

theorem chown (hR : Respects R P) : Stays env R chown :=
  hR.perform (.inl rfl) fun w => refl_of R w

theorem daemonReload (hR : Respects R P) : Stays env R daemonReload :=
  hR.perform (.inl rfl) fun w => refl_of R w

theorem systemctl (hR : Respects R P) {s : Service} (hs : P.services s) (v : Verb) :
    Stays env R (systemctl v s) :=
  (hR.external (.inr ⟨s, hs⟩) (fun _ w => hR.disturbed s hs w _) fun _ w =>
    hR.commanded s hs w v).bind fun _ => .pure _

theorem getStatus (hR : Respects R P) {s : Service} (hs : P.services s) :
    Stays env R (getStatus s) :=
  (hR.external (.inr ⟨s, hs⟩) (fun _ w => hR.disturbed s hs w _) fun _ w =>
    hR.disturbed s hs w _).bind fun _ => Stays.readHost.bind fun _ => .pure _

theorem serviceRunning (hR : Respects R P) {s : Service} (hs : P.services s) (n : ℕ) :
    Stays env R (serviceRunning s n) := by
  induction n with
  | zero => exact .pure _
  | succ n ih => exact (hR.getStatus hs).bind fun _ => .ite (.pure _) ih

theorem pollVersion (hR : Respects R P) (user password : Str) (n : ℕ) :
    Stays env R (pollVersion user password n) := by
  induction n with
  | zero => exact .pure _
  | succ n ih =>
    refine (hR.observe (.inl rfl)).bind fun a => ?_
    cases a.reply with
    | unavailable => exact ih
    | subversion s =>
      simp only
      cases Backtracking.search subversionPattern s with
      | none => exact ih
      | some m =>
        intro w
        simpa using hR.polled w user password

theorem waitForRunningVersion (hR : Respects R P) (config : Config) :
    Stays env R (waitForRunningVersion config) := hR.pollVersion _ _ _

omit [Std.Refl R] [IsTrans World R] in
theorem note (hR : Respects R P) {l : Attempt} (hl : P.account l) (r : Option Str) :
    Stays env R (note l r) :=
  Stays.modifyHost fun w => hR.noted w l r hl

theorem attempt (hR : Respects R P) {l : Attempt} (hl : P.account l) {m : Proc Unit}
    (hm : Stays env R m) : Stays env R (attempt l m) :=
  hm.outcome.bind fun _ => (hR.note hl _).bind fun _ => .pure _

theorem attemptAll (hR : Respects R P) {ops : List (Attempt × Proc Unit)}
    (h : ∀ op ∈ ops, P.account op.1 ∧ Stays env R op.2) : Stays env R (attemptAll ops) := by
  induction ops with
  | nil => exact .pure _
  | cons op ops ih =>
    obtain ⟨l, m⟩ := op
    obtain ⟨hl, hm⟩ := h (l, m) (by simp)
    exact (hR.attempt hl hm).bind fun r => (ih fun o ho => h o (by simp [ho])).bind fun _ => .pure _

omit [IsTrans World R] in
theorem raiseExcept {β : Type} (x : Except Exc β) : Stays env R (raiseExcept x) := by
  cases x with
  | ok b => exact .pure b
  | error e => exact .throw e

theorem fetch (hR : Respects R P) (lib : Library) (url : Str) : Stays env R (fetch lib url) :=
  (hR.observe (.inl rfl)).bind fun _ => .ite (.pure _) (.throw _)

theorem extractMembers (hR : Respects R P) (hst : ∀ n, P.file (.stage n)) (ms : List TarMember)
    (found : List Tool) : Stays env R (extractMembers ms found) := by
  induction ms generalizing found with
  | nil => exact .pure _
  | cons m ms ih =>
    unfold ReleaseInstaller.extractMembers
    cases toolMember m with
    | none => exact ih found
    | some tc => exact (hR.writeFile (hst _) _).bind fun _ => (hR.chmod (hst _) _).bind fun _ => ih _

theorem extractBinaries (hR : Respects R P) (hst : ∀ n, P.file (.stage n)) (lib : Library)
    (archive : Bytes) (version : Str) : Stays env R (extractBinaries lib archive version) := by
  refine (hR.observe (.inl rfl)).bind fun _ => ?_
  cases lib.tarMembers archive with
  | none => exact .throw _
  | some ms => exact (hR.extractMembers hst ms []).bind fun _ => .runIf fun _ => .throw _

theorem validateVersion (hR : Respects R P) (lib : Library) (t : Tool) (version : Str) :
    Stays env R (validateVersion lib t version) :=
  (hR.observe (.inl rfl)).bind fun _ => (fileAt _).bind fun _ => (raiseExcept _).bind fun _ =>
    (raiseExcept _).bind fun _ => .runIf fun _ => .throw _

theorem restoreBinary (hR : Respects R P) {t : Tool} (hd : P.file t.destination)
    {backup : Option Path} (hb : ∀ b, backup = some b → P.file b) :
    Stays env R (restoreBinary t backup) := by
  cases backup with
  | none => exact hR.unlink hd
  | some b =>
    exact (hR.unlink hd).bind fun _ => (fileExists b).bind fun _ =>
      .runIf fun _ => hR.replace (hb b rfl) hd

theorem restore (hR : Respects R P)
    (hd : ∀ t : Tool, P.file t.destination) (backups : List (Tool × Option Path))
    (hb : ∀ e ∈ backups, ∀ b, e.2 = some b → P.file b) : Stays env R (restore backups) := by
  induction backups with
  | nil => exact .pure _
  | cons e backups ih =>
    exact (hR.restoreBinary (hd e.1) (hb e (by simp))).bind fun _ =>
      ih fun e he => hb e (by simp [he])

theorem swapBinary (hR : Respects R P) (hst : ∀ n, P.file (.stage n))
    (hd : ∀ t : Tool, P.file t.destination) (t : Tool) (backups : List (Tool × Option Path)) :
    Stays env R (swapBinary t backups) := by
  refine (fileExists _).bind fun present => Stays.bind ?_ fun moved => ?_
  · exact .ite (hR.replace (hd t) (hst _)).outcome (.pure _)
  · cases moved with
    | some exc => exact .pure _
    | none => exact (hR.replace (hst _) (hd t)).outcome.bind fun _ => .pure _

theorem swapBinaries (hR : Respects R P) (hst : ∀ n, P.file (.stage n))
    (hd : ∀ t : Tool, P.file t.destination) (ts : List Tool)
    (backups : List (Tool × Option Path)) : Stays env R (swapBinaries ts backups) := by
  induction ts generalizing backups with
  | nil => exact .pure _
  | cons t ts ih =>
    refine (hR.swapBinary hst hd t backups).bind fun r => ?_
    obtain ⟨bs, exc⟩ := r
    cases exc with
    | some exc => exact .pure _
    | none => exact ih bs

theorem writeArchive (hR : Respects R P) (hst : ∀ n, P.file (.stage n)) (filename : Str)
    (archive : Bytes) : Stays env R (writeArchive filename archive) :=
  .ite (.throw _) (hR.writeFile (hst _) _)

theorem stopForActivation (hR : Respects R P) (hP : P.Releases) (config : Config) :
    Stays env R (stopForActivation (nodeControl config)) := by
  refine (hR.systemctl hP.services _).tryCatch fun exc =>
    (hR.attempt (hP.account _ rfl) (hR.systemctl hP.services _)).bind fun r => ?_
  cases r <;> exact .throw _

theorem verifyRunningVersion (hR : Respects R P) (lib : Library) (version : Str)
    (config : Config) : Stays env R (verifyRunningVersion lib version (nodeControl config).waitForRunningVersion) := by
  refine (hR.waitForRunningVersion config).bind fun running => ?_
  cases running with
  | none => exact .throw _
  | some v =>
    exact (raiseExcept _).bind fun _ => (raiseExcept _).bind fun _ => .runIf fun _ => .throw _

theorem startReplacement (hR : Respects R P) (hs : P.services .node) (lib : Library)
    (version : Str) (b : Bool) (config : Config) :
    Stays env R (startReplacement lib version b (nodeControl config)) :=
  .runIf fun _ => (hR.systemctl hs _).bind fun _ => hR.verifyRunningVersion lib version config

theorem rollback (hR : Respects R P) (hP : P.Releases) {backups : List (Tool × Option Path)}
    (hb : ∀ e ∈ backups, ∀ b, e.2 = some b → P.file b) (b b' : Bool) (config : Config)
    (cause : Exc) : Stays env R (rollback backups b b' (nodeControl config) cause) := by
  refine (hR.attemptAll fun op hop => ?_).bind fun _ => .runIf fun _ => .throw _
  have hstart : Stays env R startService := hR.systemctl hP.services _
  have hstop : Stays env R stopService := hR.systemctl hP.services _
  have hrestore : Stays env R (ReleaseInstaller.restore backups) :=
    hR.restore hP.destination backups hb
  simp only [List.mem_append, List.mem_ite_nil_right, List.mem_singleton] at hop
  rcases hop with (⟨-, rfl⟩ | rfl) | ⟨-, rfl⟩
  · exact ⟨hP.account _ rfl, hstop⟩
  · exact ⟨hP.account _ rfl, hrestore⟩
  · exact ⟨hP.account _ rfl, hstart⟩

theorem swapAndStart (hR : Respects R P) (hP : P.Releases) (lib : Library) (version : Str)
    (wasRunning : Bool) (config : Config) :
    Stays env R (swapAndStart lib version wasRunning (nodeControl config)) := by
  refine (hR.swapBinaries hP.stage hP.destination _ _).bind_of
    (swapBinaries_ownBackups Tool.all (by simp [OwnBackups])) fun r hr => ?_
  have hb : ∀ e ∈ r.1, ∀ b, e.2 = some b → P.file b := fun e he b h =>
    hr e he b h ▸ hP.stage _
  obtain ⟨backups, failed⟩ := r
  cases failed with
  | some exc => exact (hR.rollback hP hb _ _ config exc).bind fun _ => .throw _
  | none =>
    exact (hR.startReplacement hP.services lib version wasRunning config).tryCatch fun exc =>
      (hR.rollback hP hb _ _ config exc).bind fun _ => .throw _

theorem activate (hR : Respects R P) (hP : P.Releases) (lib : Library) (version : Str)
    (config : Config) : Stays env R (activate lib version (nodeControl config)) :=
  (hR.getStatus hP.services).bind fun wasRunning =>
    (Stays.runIf fun _ => hR.stopForActivation hP config).bind fun _ =>
    hR.swapAndStart hP lib version wasRunning config

theorem withStage (hR : Respects R P) (hst : ∀ n, P.file (.stage n)) {m : Proc Unit}
    (hm : Stays env R m) : Stays env R (withStage m) :=
  (hR.perform (.inl rfl) (hR.cleared hst)).bind fun _ =>
    (hm.tryCatch fun _ => (hR.perform (.inl rfl) (hR.cleared hst)).bind fun _ => .throw _).bind
      fun _ => hR.perform (.inl rfl) (hR.cleared hst)

/-- Everything around the activation leaves services and account alone. -/
theorem installRelease_of_activate (hR : Respects R P) (hst : ∀ n, P.file (.stage n))
    (lib : Library) {version : Str} (binaryUrl : Str) {config : Config}
    (hact : Stays env R (ReleaseInstaller.activate lib version (nodeControl config))) :
    Stays env R (installRelease lib version binaryUrl (nodeControl config)) :=
  .runIf fun _ => (raiseExcept _).bind fun _ => (hR.fetch lib _).bind fun _ =>
    (hR.fetch lib _).bind fun _ => (raiseExcept _).bind fun _ =>
    (Stays.runIf fun _ => .throw _).bind fun _ => (hR.mkdirParents _).bind fun _ =>
    hR.withStage hst <| (hR.writeArchive hst _ _).bind fun _ =>
      (hR.extractBinaries hst lib _ _).bind fun _ =>
      (hR.validateVersion lib _ _).bind fun _ => (hR.validateVersion lib _ _).bind fun _ => hact

theorem installRelease (hR : Respects R P) (hP : P.Releases) (lib : Library)
    (version binaryUrl : Str) (config : Config) :
    Stays env R (installRelease lib version binaryUrl (nodeControl config)) :=
  hR.installRelease_of_activate hP.stage lib binaryUrl (hR.activate hP lib version config)

theorem installBitcoin (hR : Respects R P) (hP : P.Releases) (lib : Library)
    (version : Str) (config : Config) (binaryUrl : Str) :
    Stays env R (installBitcoin lib version config binaryUrl) :=
  (hR.installRelease hP lib version binaryUrl config).bind fun _ => .runIf fun _ => hR.chown

theorem installRpcProxy (hR : Respects R P) (hp : P.file .rpcProxyBinary)
    (ht : P.file (.temporary .rpcProxyBinary)) (lib : Library) (version : Str) :
    Stays env R (installRpcProxy lib version) :=
  .runIf fun _ => (hR.fetch lib _).bind fun _ => (hR.mkstemp ht).bind_of
    (r := fun tmp => tmp = .temporary .rpcProxyBinary)
    (fun w => wp_mkstemp (fun _ => trivial) rfl) fun tmp htmp => by
      subst htmp
      exact Stays.bind (Stays.onRaise ((hR.writeFile ht _).bind fun _ =>
        (hR.chmod ht _).bind fun _ => hR.replace ht hp) (hR.unlink ht)) fun _ => hR.chown

theorem fileHolds (hR : Respects R P) (p : Path) (content : Str) :
    Stays env R (fileHolds p content) := by
  refine (fileExists p).bind fun present => ?_
  cases present with
  | true => exact (hR.readText p).bind fun _ => .pure _
  | false => exact .pure _

theorem installServiceFile (hR : Respects R P) {s : Service} (hp : P.file (.unit s))
    (lib : Library) : Stays env R (installServiceFile lib s) := by
  refine (decoded _).bind fun _ => (hR.fileHolds _ _).bind fun same => ?_
  cases same with
  | true => exact .pure _
  | false => exact (hR.writeFile hp _).bind fun _ => hR.daemonReload.bind fun _ => .pure _

theorem updateServiceArgs (hR : Respects R P) (hp : P.file (.env .node)) (config : Config) :
    Stays env R (updateServiceArgs config false) :=
  (Stays.runIf (by simp)).bind fun _ => (hR.fileHolds _ _).bind fun _ =>
    (hR.writeFile hp _).bind fun _ => (Stays.runIf (by simp)).bind fun _ => .pure _

theorem installBitcoindMonitor (hR : Respects R P) (hp : P.file .monitorScript)
    (he : P.file (.env .monitor)) (lib : Library) (config : Config) :
    Stays env R (installBitcoindMonitor lib config false) :=
  (hR.mkdirParents _).bind fun _ => (hR.writeFile hp _).bind fun _ =>
    (hR.writeFile he _).bind fun _ => .runIf (by simp)

theorem installRpcProxyService (hR : Respects R P) (hp : P.file (.unit .rpcProxy))
    (he : P.file (.env .rpcProxy)) (lib : Library) (config : Config) :
    Stays env R (installRpcProxyService lib config false) :=
  (hR.installServiceFile hp lib).bind fun _ => (hR.writeFile he _).bind fun _ => .runIf (by simp)

theorem writeConfigGeneration (hR : Respects R P) (hp : ∀ p ∈ Path.transactionPaths, P.file p)
    (ht : P.file (.temporary .rpcProxyBinary)) (lib : Library) (config : Config)
    (changed : Finset Key) (a : Affected) :
    Stays env R (writeConfigGeneration lib config changed a) :=
  (Stays.runIf fun _ => hR.installRpcProxy (hp _ (by decide)) ht lib _).bind fun _ =>
    (Stays.runIf fun _ => (hR.updateServiceArgs (hp _ (by decide)) config).bind
      fun _ => .pure _).bind fun _ =>
    (Stays.runIf fun _ => hR.installBitcoindMonitor (hp _ (by decide)) (hp _ (by decide))
      lib config).bind fun _ =>
    .runIf fun _ => hR.installRpcProxyService (hp _ (by decide)) (hp _ (by decide)) lib config

omit [IsTrans World R] in
theorem require (ready : Bool) (message : Str) : Stays env R (require ready message) :=
  .runIf fun _ => .throw _

theorem activateNode (hR : Respects R P) (hP : P.Releases) (lib : Library) (config : Config)
    (changed : Finset Key) (snapshot : Snapshot) (a : Affected) :
    Stays env R (activateNode lib config changed snapshot a) :=
  .ite (hR.installBitcoin hP lib _ config _) <| .runIf fun _ =>
    (hR.systemctl hP.services _).bind fun _ => (hR.waitForRunningVersion config).bind fun _ =>
    require _ _

theorem activateMonitor (hR : Respects R P) (hs : P.services .monitor) (snapshot : Snapshot)
    (a : Affected) : Stays env R (activateMonitor snapshot a) :=
  .runIf fun _ => (hR.systemctl hs _).bind fun _ => (hR.serviceRunning hs _).bind fun _ =>
    require _ _

theorem activateRpcProxy (hR : Respects R P) (hs : P.services .rpcProxy) (snapshot : Snapshot)
    (a : Affected) : Stays env R (activateRpcProxy snapshot a) :=
  .runIf fun _ => (fileExists _).bind fun _ => (require _ _).bind fun _ =>
    (hR.systemctl hs _).bind fun _ => (hR.serviceRunning hs _).bind fun _ => require _ _

theorem checkNode (hR : Respects R P) (hs : P.services .node) (snapshot : Snapshot) :
    Stays env R (checkNode snapshot) :=
  .runIf fun _ => (hR.serviceRunning hs _).bind fun _ => require _ _

theorem applyGeneration (hR : Respects R P) (hP : P.Releases) (hs : ∀ s, P.services s)
    (hp : ∀ p ∈ Path.transactionPaths, P.file p) (ht : P.file (.temporary .rpcProxyBinary))
    (lib : Library) (config : Config) (changed : Finset Key) (snapshot : Snapshot) :
    Stays env R (applyGeneration lib config changed snapshot) :=
  (hR.writeConfigGeneration hp ht lib config changed _).bind fun _ =>
    (hR.activateNode hP lib config changed snapshot _).bind fun _ =>
    (hR.activateMonitor (hs _) snapshot _).bind fun _ =>
    (hR.activateRpcProxy (hs _) snapshot _).bind fun _ => hR.checkNode (hs _) snapshot

theorem captureFile (hR : Respects R P) (p : Path) : Stays env R (captureFile p) := by
  refine (fileExists p).bind fun present => ?_
  cases present with
  | true => exact (hR.readBytes p).bind fun _ => (hR.statMode p).bind fun _ => .pure _
  | false => exact .pure _

theorem captureFiles (hR : Respects R P) (ps : List Path) : Stays env R (captureFiles ps) := by
  induction ps with
  | nil => exact .pure _
  | cons p ps ih => exact (hR.captureFile p).bind fun _ => ih.bind fun _ => .pure _

theorem captureConfigTransaction (hR : Respects R P) (hs : ∀ s, P.services s) :
    Stays env R captureConfigTransaction :=
  (hR.captureFiles _).bind fun _ => (hR.getStatus (hs _)).bind fun _ =>
    (hR.getStatus (hs _)).bind fun _ => (hR.getStatus (hs _)).bind fun _ => .pure _

theorem restoreFile (hR : Respects R P) {p : Path} (hp : P.file p) (ht : P.file (.temporary p))
    (f : Option FileState) : Stays env R (restoreFile p f) := by
  cases f with
  | none => exact hR.unlink hp
  | some f =>
    refine (hR.mkdirParents p).bind fun _ => (hR.mkstemp ht).bind_of
      (r := fun tmp => tmp = .temporary p) (fun w => wp_mkstemp (fun _ => trivial) rfl)
      fun tmp htmp => ?_
    subst htmp
    exact Stays.onRaise ((hR.writeFile ht _).bind fun _ => (hR.chmod ht _).bind fun _ =>
      hR.replace ht hp) (hR.unlink ht)

theorem readinessErrors (hR : Respects R P) {s : Service} (hl : P.account (.readiness s))
    (r : Option Str) : Stays env R (readinessErrors s r) :=
  (hR.note hl r).bind fun _ => .pure _

theorem restoredErrors (hR : Respects R P) {s : Service} (hs : P.services s)
    (hl : P.account (.readiness s)) (hu : P.account (.uncaught s)) (snapshot : Snapshot)
    (previous : Config) : Stays env R (restoredErrors snapshot previous s) := by
  have service : Stays env R (serviceReadinessErrors s) :=
    ((hR.serviceRunning hs 4).tryCatch fun _ => (hR.note hu _).bind fun _ => .throw _).bind
      fun _ => hR.readinessErrors hl _
  rw [ConfigTransaction.restoredErrors.eq_def]
  refine .ite ?_ (.pure _)
  cases s with
  | node =>
    exact (((hR.waitForRunningVersion previous).bind fun _ => .pure _).tryCatch fun _ =>
      .pure _).bind fun _ => hR.readinessErrors hl _
  | monitor | rpcProxy => exact service

theorem restoredServiceErrors (hR : Respects R P) (hs : ∀ s, P.services s)
    (ha : ∀ s, P.account (.readiness s) ∧ P.account (.uncaught s)) (snapshot : Snapshot)
    (previous : Config) : Stays env R (restoredServiceErrors snapshot previous) :=
  (hR.restoredErrors (hs _) (ha _).1 (ha _).2 snapshot previous).bind fun _ =>
    (hR.restoredErrors (hs _) (ha _).1 (ha _).2 snapshot previous).bind fun _ =>
    (hR.restoredErrors (hs _) (ha _).1 (ha _).2 snapshot previous).bind fun _ => .pure _

end Respects

/-- Files outside `S` are neither changed nor written. -/
def SameOutside (S : Path → Prop) (w w' : World) : Prop :=
  ∀ p, ¬ S p → w'.host.files p = w.host.files p ∧ w'.host.written p = w.host.written p

instance (S : Path → Prop) : Std.Refl (SameOutside S) := ⟨fun _ _ _ => ⟨rfl, rfl⟩⟩

instance (S : Path → Prop) : IsTrans World (SameOutside S) :=
  ⟨fun _ _ _ h h' p hp => ⟨(h' p hp).1.trans (h p hp).1, (h' p hp).2.trans (h p hp).2⟩⟩

theorem respects_sameOutside (S : Path → Prop) :
    Respects (SameOutside S) ⟨S, fun _ => True, fun _ => True⟩ where
  asked := fun _ _ _ _ _ => ⟨rfl, rfl⟩
  filed := by
    intro w p f hp q hq
    have hne : q ≠ p := fun h => hq (h ▸ hp)
    exact ⟨setFile_files_ne hne _ _ _, Function.update_of_ne hne _ _⟩
  cleared := by
    intro hst w p hp
    refine ⟨?_, rfl⟩
    cases p with
    | stage n => exact absurd (hst n) hp
    | _ => rfl
  polled := fun _ _ _ _ _ => ⟨rfl, rfl⟩
  disturbed := fun _ _ _ _ _ _ => ⟨rfl, rfl⟩
  commanded := by
    intro s _ w v p _
    obtain ⟨r, st, h⟩ := systemctl_eq w.host v s w.history.length
    simp [h]
  noted := fun _ _ _ _ _ _ => ⟨rfl, rfl⟩

/-- Services and account are left alone, and no service is acted on or asked about. -/
structure Undisturbed (w w' : World) : Prop where
  running : w'.host.running = w.host.running
  process : w'.host.process = w.host.process
  attempts : w'.host.attempts = w.host.attempts
  quiet : ∃ ops, w'.history = ops ++ w.history ∧ ∀ o ∈ ops, isQuiet o

instance : Std.Refl Undisturbed := ⟨fun _ => ⟨rfl, rfl, rfl, [], by simp⟩⟩

instance : IsTrans World Undisturbed := ⟨by
  rintro _ _ _ ⟨hr, hs, ha, ops, hh, hq⟩ ⟨hr', hs', ha', ops', hh', hq'⟩
  refine ⟨hr'.trans hr, hs'.trans hs, ha'.trans ha, ops' ++ ops, by simp [hh, hh'], ?_⟩
  simpa [or_imp, forall_and] using ⟨hq', hq⟩⟩

theorem respects_undisturbed :
    Respects Undisturbed ⟨fun _ => True, fun _ => False, fun _ => False⟩ where
  asked := fun w o h => ⟨rfl, rfl, rfl, [o], by simpa using h⟩
  filed := fun w _ _ _ => ⟨rfl, rfl, rfl, [], by simp⟩
  cleared := fun _ w => ⟨rfl, rfl, rfl, [], by simp⟩
  polled := fun w _ _ => ⟨rfl, rfl, rfl, [], by simp⟩
  disturbed := fun _ => False.elim
  commanded := fun _ => False.elim
  noted := fun _ _ _ => False.elim

/-- The history only grows. -/
def Grows (w w' : World) : Prop := ∃ ops, w'.history = ops ++ w.history

instance : Std.Refl Grows := ⟨fun _ => ⟨[], rfl⟩⟩

instance : IsTrans World Grows :=
  ⟨fun _ _ _ ⟨ops, h⟩ ⟨ops', h'⟩ => ⟨ops' ++ ops, by simp [h, h']⟩⟩

theorem respects_grows : Respects Grows ⟨fun _ => True, fun _ => True, fun _ => True⟩ where
  asked := fun _ o _ => ⟨[o], rfl⟩
  filed := fun _ _ _ _ => ⟨[], rfl⟩
  cleared := fun _ _ => ⟨[], rfl⟩
  polled := fun _ _ _ => ⟨[], rfl⟩
  disturbed := fun _ _ _ _ => ⟨[], rfl⟩
  commanded := fun _ _ _ _ => ⟨[], rfl⟩
  noted := fun _ _ _ _ => ⟨[], rfl⟩

/-- The account only grows, by entries under the labels `L`. -/
def Accounts (L : Attempt → Prop) (w w' : World) : Prop :=
  ∃ entries, w'.host.attempts = entries ++ w.host.attempts ∧ ∀ e ∈ entries, L e.1

instance (L : Attempt → Prop) : Std.Refl (Accounts L) := ⟨fun _ => ⟨[], by simp⟩⟩

instance (L : Attempt → Prop) : IsTrans World (Accounts L) := ⟨by
  rintro _ _ _ ⟨es, h, hl⟩ ⟨es', h', hl'⟩
  refine ⟨es' ++ es, by simp [h, h'], ?_⟩
  intro e he
  exact (List.mem_append.1 he).elim (hl' e) (hl e)⟩

theorem respects_accounts (L : Attempt → Prop) :
    Respects (Accounts L) ⟨fun _ => True, fun _ => True, L⟩ where
  asked := fun _ _ _ => ⟨[], by simp⟩
  filed := fun _ _ _ _ => ⟨[], by simp [Host.setFile]⟩
  cleared := fun _ _ => ⟨[], by simp [Host.clearStage]⟩
  polled := fun _ _ _ => ⟨[], by simp⟩
  disturbed := fun _ _ _ _ => ⟨[], by simp⟩
  commanded := by
    intro s _ w v
    obtain ⟨r, st, h⟩ := systemctl_eq w.host v s w.history.length
    exact ⟨[], by simp [h]⟩
  noted := fun w l r hl => ⟨[(l, r)], by simpa [Host.noted] using hl⟩

/-- No recovery step of the kind `K` on the account failed. -/
def Clean (K : Attempt → Bool) (w : World) : Prop := ∀ e ∈ w.host.attempts, K e.1 → e.2 = none

theorem Clean.of_accounts {K : Attempt → Bool} {L : Attempt → Prop} {w w' : World}
    (h : Accounts L w w') (hc : Clean K w') : Clean K w := by
  obtain ⟨entries, heq, -⟩ := h
  intro e he
  exact hc e (heq ▸ List.mem_append_right entries he)

theorem Clean.not_failed {K : Attempt → Bool} {w : World} {l : Attempt} {m : Str}
    (hc : Clean K w) (hl : K l) : (l, some m) ∉ w.host.attempts := by
  intro hmem
  have hnone := hc _ hmem hl
  simp at hnone

theorem attemptAll_returns (ops : List (Attempt × Proc Unit)) (w : World) :
    wp env (attemptAll ops) (fun _ _ => True) (fun _ _ => False) w := by
  induction ops generalizing w with
  | nil => trivial
  | cons op ops ih =>
    rw [wp_attemptAll_cons]
    exact wp_mono (wp_trivial op.2 w) (fun _ _ _ => ih _) fun _ _ _ => ih _

/-- To reach a clean end, the first step returned: what holds then carries on. -/
theorem attemptAll_cons_clean {K : Attempt → Bool} {l : Attempt} {m : Proc Unit}
    {rest : List (Attempt × Proc Unit)} {Q : World → Prop} {E : Exc → World → Prop} (hl : K l)
    (hrest : ∀ op ∈ rest, Stays env (Accounts fun _ => True) op.2)
    (h : wp env m (fun _ w' => wp env (attemptAll rest) (fun _ w' => Clean K w' → Q w') E
      ⟨w'.history, w'.host.noted l none⟩) (fun _ _ => True) w) :
    wp env (attemptAll ((l, m) :: rest)) (fun _ w' => Clean K w' → Q w') E w := by
  rw [wp_attemptAll_cons]
  refine wp_mono h (fun _ w' hw' => hw') fun exc w' _ => ?_
  -- a failed step stays on the account, so the end is not clean
  have grows := (respects_accounts fun _ => True).attemptAll fun op hop =>
    ⟨trivial, hrest op hop⟩
  refine wp_mono (wp_and (grows _) (attemptAll_returns rest _)) (fun _ w'' hw'' hc => ?_)
    fun _ _ hw'' => hw''.2.elim
  exact absurd (List.mem_cons_self ..) ((Clean.of_accounts hw''.1 hc).not_failed hl)

end BitcoinRpcOperator.HostFrames
