import BitcoinRpcOperator.ConfigTransaction

/-!
# What one step does to the host

One rule for each primitive of `HostSystem`, saying what it leaves behind when it
returns and when it raises.
-/

namespace BitcoinRpcOperator.HostSteps
open Text ServiceConfiguration FallibleProcedures HostSystem ReleaseInstaller ConfigTransaction

variable {env : Environment} {α : Type} {w : World}

/-- Units change only when the charm acts on them. -/
def Steady (env : Environment) : Prop := ∀ hist op r, (env hist op).drift r = r

theorem wp_external {Q : Answer → World → Prop} {E : Exc → World → Prop} {op : Op}
    {failed done : Answer → ℕ → Host → Host}
    (hE : ∀ m, (env w.history op).raises = some m → E (.raised m) ⟨op :: w.history,
      failed (env w.history op) (w.history.length + 1) w.host⟩)
    (hQ : (env w.history op).raises = none → Q (env w.history op) ⟨op :: w.history,
      done (env w.history op) (w.history.length + 1) w.host⟩) :
    wp env (external op failed done) Q E w := by
  simp only [external, wp_bind, wp_ask, wp_now, List.length_cons]
  cases h : (env w.history op).raises with
  | none => simpa using hQ h
  | some m => simpa using hE m h

theorem wp_observe {Q : Answer → World → Prop} {E : Exc → World → Prop} {op : Op}
    (hE : ∀ m, (env w.history op).raises = some m → E (.raised m) ⟨op :: w.history, w.host⟩)
    (hQ : (env w.history op).raises = none →
      Q (env w.history op) ⟨op :: w.history, w.host⟩) :
    wp env (observe op) Q E w := wp_external hE hQ

theorem wp_perform {Q : Unit → World → Prop} {E : Exc → World → Prop} {op : Op}
    {done : ℕ → Host → Host}
    (hE : ∀ m, (env w.history op).raises = some m → E (.raised m) ⟨op :: w.history, w.host⟩)
    (hQ : (env w.history op).raises = none →
      Q () ⟨op :: w.history, done (w.history.length + 1) w.host⟩) :
    wp env (perform op done) Q E w := by
  simp only [perform, wp_bind]
  exact wp_external hE fun h => by simpa using hQ h

@[simp] theorem wp_fileExists {Q : Bool → World → Prop} {E : Exc → World → Prop} (p : Path) :
    wp env (fileExists p) Q E = fun w => Q (w.host.files p).isSome w := rfl

theorem wp_fileAt {Q : FileState → World → Prop} {E : Exc → World → Prop} {p : Path}
    (hE : w.host.files p = none → E noSuchFile w)
    (hQ : ∀ f, w.host.files p = some f → Q f w) : wp env (fileAt p) Q E w := by
  simp only [fileAt, wp_bind, wp_readHost]
  cases h : w.host.files p with
  | none => simpa using hE h
  | some f => simpa using hQ f h

theorem wp_readBytes {Q : Bytes → World → Prop} {E : Exc → World → Prop} {p : Path}
    (hE : ∀ m, E (.raised m) ⟨.read p :: w.history, w.host⟩)
    (hQ : ∀ f, w.host.files p = some f → Q f.data ⟨.read p :: w.history, w.host⟩) :
    wp env (readBytes p) Q E w := by
  simp only [readBytes, wp_bind]
  refine wp_observe (fun m _ => hE m) fun _ => ?_
  exact wp_fileAt (fun _ => hE _) fun f hf => by simpa using hQ f hf

theorem wp_statMode {Q : ℕ → World → Prop} {E : Exc → World → Prop} {p : Path}
    (hE : ∀ m, E (.raised m) ⟨.stat p :: w.history, w.host⟩)
    (hQ : ∀ f, w.host.files p = some f → Q f.mode ⟨.stat p :: w.history, w.host⟩) :
    wp env (statMode p) Q E w := by
  simp only [statMode, wp_bind]
  refine wp_observe (fun m _ => hE m) fun _ => ?_
  exact wp_fileAt (fun _ => hE _) fun f hf => by simpa using hQ f hf

theorem wp_writeFile {Q : Unit → World → Prop} {E : Exc → World → Prop} {p : Path} {data : Bytes}
    (hE : ∀ m f, E (.raised m) ⟨.write p :: w.history,
      w.host.setFile p f (w.history.length + 1)⟩)
    (hQ : Q () ⟨.write p :: w.history, w.host.setFile p
      (some ⟨data, ((w.host.files p).map (·.mode)).getD 0o644⟩) (w.history.length + 1)⟩) :
    wp env (writeFile p data) Q E w := by
  simp only [writeFile, wp_bind]
  exact wp_external (fun m _ => hE m _) fun _ => by simpa using hQ

theorem wp_chmod {Q : Unit → World → Prop} {E : Exc → World → Prop} {p : Path} {mode : ℕ}
    (hE : ∀ m hist, E (.raised m) ⟨hist, w.host⟩)
    (hQ : ∀ f, w.host.files p = some f → Q () ⟨.chmod p :: w.history,
      w.host.setFile p (some { f with mode }) (w.history.length + 1)⟩) :
    wp env (chmod p mode) Q E w := by
  simp only [chmod, wp_bind]
  exact wp_fileAt (fun _ => hE _ _) fun f hf => wp_perform (fun m _ => hE m _) fun _ => hQ f hf

theorem wp_unlink {Q : Unit → World → Prop} {E : Exc → World → Prop} {p : Path}
    (hE : ∀ m, E (.raised m) ⟨.unlink p :: w.history, w.host⟩)
    (hQ : Q () ⟨.unlink p :: w.history, w.host.setFile p none (w.history.length + 1)⟩) :
    wp env (unlink p) Q E w := wp_perform (fun m _ => hE m) fun _ => hQ

theorem wp_replace {Q : Unit → World → Prop} {E : Exc → World → Prop} {p q : Path}
    (hE : ∀ m hist, E (.raised m) ⟨hist, w.host⟩)
    (hQ : ∀ f, w.host.files p = some f → Q () ⟨.replace p q :: w.history,
      (w.host.setFile q (some f) (w.history.length + 1)).setFile p none (w.history.length + 1)⟩) :
    wp env (replace p q) Q E w := by
  simp only [replace, wp_bind]
  exact wp_fileAt (fun _ => hE _ _) fun f hf => wp_perform (fun m _ => hE m _) fun _ => hQ f hf

theorem wp_mkstemp {Q : Path → World → Prop} {E : Exc → World → Prop} {p : Path}
    (hE : ∀ m, E (.raised m) ⟨.mkstemp p :: w.history, w.host⟩)
    (hQ : Q (.temporary p) ⟨.mkstemp p :: w.history,
      w.host.setFile (.temporary p) (some ⟨[], 0o600⟩) (w.history.length + 1)⟩) :
    wp env (mkstemp p) Q E w := by
  simp only [mkstemp, wp_bind]
  exact wp_perform (fun m _ => hE m) fun _ => by simpa using hQ

theorem wp_systemctl {Q : Unit → World → Prop} {E : Exc → World → Prop} {v : Verb} {s : Service}
    (hE : ∀ m r, (env w.history (.systemctl v s)).raises = some m →
      E (.raised m) ⟨.systemctl v s :: w.history, { w.host with running := r }⟩)
    (hQ : Q () ⟨.systemctl v s :: w.history, w.host.systemctl v s (w.history.length + 1)⟩) :
    wp env (systemctl v s) Q E w := by
  simp only [systemctl, wp_bind]
  exact wp_external (fun m h => hE m _ h) fun _ => by simpa using hQ

theorem wp_getStatus {Q : Bool → World → Prop} {E : Exc → World → Prop} {s : Service}
    (hE : ∀ m, (env w.history (.status s)).raises = some m → E (.raised m) ⟨.status s :: w.history,
      { w.host with running := (env w.history (.status s)).drift w.host.running }⟩)
    (hQ : Q ((env w.history (.status s)).drift w.host.running s) ⟨.status s :: w.history,
      { w.host with running := (env w.history (.status s)).drift w.host.running }⟩) :
    wp env (getStatus s) Q E w := by
  simp only [getStatus, wp_bind]
  exact wp_external hE fun _ => by simpa using hQ

theorem wp_getStatus_steady (hs : Steady env) {Q : Bool → World → Prop} {E : Exc → World → Prop}
    {s : Service} (hE : ∀ m, (env w.history (.status s)).raises = some m →
      E (.raised m) ⟨.status s :: w.history, w.host⟩)
    (hQ : Q (w.host.running s) ⟨.status s :: w.history, w.host⟩) :
    wp env (getStatus s) Q E w := by
  refine wp_getStatus (fun m hm => ?_) ?_
  · rw [hs]
    exact hE m hm
  · rw [hs]
    exact hQ

theorem wp_note {Q : Unit → World → Prop} {E : Exc → World → Prop} {l : Attempt}
    {r : Option Str} : wp env (note l r) Q E = fun w => Q () ⟨w.history, w.host.noted l r⟩ := rfl

theorem wp_attempt {Q : Option Exc → World → Prop} {E : Exc → World → Prop} {l : Attempt}
    {m : Proc Unit} : wp env (attempt l m) Q E = wp env m
      (fun _ w => Q none ⟨w.history, w.host.noted l none⟩)
      (fun e w => Q (some e) ⟨w.history, w.host.noted l (some e.text)⟩) := by
  simp [attempt, wp_note]

theorem wp_attemptAll_cons {Q : List Str → World → Prop} {E : Exc → World → Prop} {l : Attempt}
    {m : Proc Unit} {rest : List (Attempt × Proc Unit)} :
    wp env (attemptAll ((l, m) :: rest)) Q E = wp env m
      (fun _ w => wp env (attemptAll rest) Q E ⟨w.history, w.host.noted l none⟩)
      (fun e w => wp env (attemptAll rest) (fun errors => Q (failureText l e.text :: errors)) E
        ⟨w.history, w.host.noted l (some e.text)⟩) := by
  simp [attemptAll, wp_attempt]

theorem wp_attemptAll_append {Q : List Str → World → Prop} {E : Exc → World → Prop}
    (xs ys : List (Attempt × Proc Unit)) : wp env (attemptAll (xs ++ ys)) Q E =
      wp env (attemptAll xs) (fun errors => wp env (attemptAll ys) (fun more => Q (errors ++ more)) E)
        E := by
  induction xs generalizing Q with
  | nil => rfl
  | cons x xs ih =>
    obtain ⟨l, m⟩ := x
    simp only [List.cons_append, wp_attemptAll_cons, ih]

@[simp] theorem setFile_files_self (p : Path) (h : Host) (f : Option FileState) (t : ℕ) :
    (h.setFile p f t).files p = f := by simp [Host.setFile]

theorem setFile_files_ne {p q : Path} (hne : q ≠ p) (h : Host) (f : Option FileState) (t : ℕ) :
    (h.setFile p f t).files q = h.files q := by simp [Host.setFile, Function.update_of_ne hne]

@[simp] theorem noted_files (h : Host) (l : Attempt) (r : Option Str) :
    (h.noted l r).files = h.files := rfl

@[simp] theorem noted_running (h : Host) (l : Attempt) (r : Option Str) :
    (h.noted l r).running = h.running := rfl

theorem startUnit_eq (h : Host) (s : Service) (t : ℕ) : ∃ r st,
    h.startUnit s t = { h with running := r, process := st } := by
  unfold Host.startUnit
  split
  · exact ⟨h.running, h.process, rfl⟩
  · exact ⟨_, _, rfl⟩

/-- `systemctl` changes nothing but unit states and start times. -/
theorem systemctl_eq (h : Host) (v : Verb) (s : Service) (t : ℕ) : ∃ r st,
    h.systemctl v s t = { h with running := r, process := st } := by
  have wanted : ∃ r st, (Host.wants s).foldl (fun h w => h.startUnit w t) h =
      { h with running := r, process := st } := by
    cases s with
    | rpcProxy => exact startUnit_eq h .node t
    | node | monitor => exact ⟨h.running, h.process, rfl⟩
  obtain ⟨r, st, hw⟩ := wanted
  cases v with
  | stop => exact ⟨_, h.process, rfl⟩
  | start =>
    simp only [Host.systemctl, hw]
    exact startUnit_eq _ s t
  | restart =>
    simp only [Host.systemctl, hw]
    exact startUnit_eq _ s t

@[simp] theorem systemctl_files (h : Host) (v : Verb) (s : Service) (t : ℕ) :
    (h.systemctl v s t).files = h.files := by
  obtain ⟨r, st, heq⟩ := systemctl_eq h v s t
  rw [heq]

theorem startUnit_running (h : Host) (s : Service) (t : ℕ) :
    (h.startUnit s t).running = Function.update h.running s true := by
  unfold Host.startUnit
  split
  · rename_i hs
    rw [← hs, Function.update_eq_self]
  · rfl

def commandedUnits (r : Service → Bool) : Verb → Service → Service → Bool
  | .stop, s => Function.update r s false
  | _, .rpcProxy => Function.update (Function.update r .node true) .rpcProxy true
  | _, s => Function.update r s true

theorem systemctl_running (h : Host) (v : Verb) (s : Service) (t : ℕ) :
    (h.systemctl v s t).running = commandedUnits h.running v s := by
  cases v with
  | stop => rfl
  | start =>
    cases s <;>
      simp [Host.systemctl, Host.wants, startUnit_running, commandedUnits]
  | restart =>
    cases s <;>
      simp [Host.systemctl, Host.wants, startUnit_running, Host.stopUnit, commandedUnits]

/-- The two ways the old binary of `t` gets out of the way, with the map's entry. -/
inductive MovedAside (t : Tool) (h : Host) : Option Path → Host → Prop
  | absent : h.files t.destination = none → MovedAside t h none h
  | present (f : FileState) (n : ℕ) : h.files t.destination = some f →
      MovedAside t h (some t.backup)
        ((h.setFile t.backup (some f) n).setFile t.destination none n)

theorem MovedAside.files_eq {t : Tool} {b : Option Path} {h h' : Host} (hm : MovedAside t h b h')
    {p : Path} (hd : p ≠ t.destination) (hb : p ≠ t.backup) : h'.files p = h.files p := by
  cases hm with
  | absent => rfl
  | present f n => rw [setFile_files_ne hd, setFile_files_ne hb]

/-- One turn of the swap: the first rename raises and nothing has happened, or the old
binary is aside, its entry recorded, and the second rename raises or is done. -/
theorem wp_swapBinary {Q : List (Tool × Option Path) × Option Exc → World → Prop}
    {E : Exc → World → Prop} {t : Tool} {backups : List (Tool × Option Path)}
    (hfirst : ∀ e hist, Q (backups, some e) ⟨hist, w.host⟩)
    (hsecond : ∀ b h e hist, MovedAside t w.host b h → Q (backups ++ [(t, b)], some e) ⟨hist, h⟩)
    (hdone : ∀ b h f n hist, MovedAside t w.host b h → h.files t.staged = some f →
      Q (backups ++ [(t, b)], none)
        ⟨hist, (h.setFile t.destination (some f) n).setFile t.staged none n⟩) :
    wp env (swapBinary t backups) Q E w := by
  -- the second rename, from any host with the old binary aside
  have swapped : ∀ b (w' : World), MovedAside t w.host b w'.host →
      wp env (outcome (replace t.staged t.destination))
        (fun r => Q (backups ++ [(t, b)], r)) E w' := by
    intro b w' haside
    rw [wp_outcome]
    exact wp_replace (fun m hist => hsecond b _ _ hist haside)
      fun f hf => hdone b _ f _ _ haside hf
  simp only [swapBinary, moveAside, wp_bind, wp_fileExists, wp_ite]
  cases hdest : w.host.files t.destination with
  | none =>
    simp only [Option.isSome_none, Bool.false_eq_true, ↓reduceIte, wp_pure, wp_bind]
    exact swapped none w (.absent hdest)
  | some f =>
    simp only [Option.isSome_some, ↓reduceIte, wp_outcome]
    refine wp_replace (fun m hist => hfirst _ hist) fun f hf => ?_
    rw [wp_bind]
    exact swapped _ _ (.present f _ hf)

def returnsNormally {α : Type} : EStateM.Result Exc World α → Bool
  | .ok _ _ => true
  | .error _ _ => false

theorem exists_of_returnsNormally {α : Type} {r : EStateM.Result Exc World α}
    (h : returnsNormally r = true) : ∃ a w', r = .ok a w' := by
  cases r with
  | ok a w' => exact ⟨a, w', rfl⟩
  | error _ _ => cases h

/-- Whether a run raised in a world that passes the check. -/
def raisesIn {α : Type} (check : World → Bool) : EStateM.Result Exc World α → Bool
  | .ok _ _ => false
  | .error _ w' => check w'

theorem exists_of_raisesIn {α : Type} {check : World → Bool} {r : EStateM.Result Exc World α}
    (h : raisesIn check r = true) : ∃ e w', r = .error e w' ∧ check w' = true := by
  cases r with
  | ok _ _ => cases h
  | error e w' => exact ⟨e, w', rfl, h⟩

end BitcoinRpcOperator.HostSteps
