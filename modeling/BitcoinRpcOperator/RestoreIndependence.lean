import BitcoinRpcOperator.ReleaseAtomicity

/-!
# What a failed restore of one binary leaves of the other

Unlinking and renaming happen in `_swap_binaries` and `_restore` only, so what became
of either binary is read off the moves of a run. The loop of `_restore` stops at the
first move that raises; the entries behind it stay where the swap left them.
-/

namespace BitcoinRpcOperator.RestoreIndependence
open Text ServiceConfiguration FallibleProcedures HostSystem ReleaseInstaller ConfigTransaction
open HostSteps HostFrames ReleaseAtomicity

variable {env : Environment} {α : Type} {w : World}

def isMove : Op → Bool
  | .unlink _ | .replace _ _ => true
  | _ => false

/-- Nothing was unlinked or renamed. -/
abbrev Unmoved (w w' : World) : Prop := Asks (fun o => isMove o = false) w w'

section Asking

variable {S : Op → Prop}

theorem asks_external {op : Op} (ho : S op) (failed done : Answer → ℕ → Host → Host) :
    Stays env (Asks S) (external op failed done) := fun _ =>
  wp_external (fun _ _ => .of_history_cons ho rfl) fun _ => .of_history_cons ho rfl

theorem asks_perform {op : Op} (ho : S op) (done : ℕ → Host → Host) :
    Stays env (Asks S) (perform op done) :=
  (asks_external ho _ _).bind fun _ => .pure _

theorem asks_fileAt (p : Path) : Stays env (Asks S) (fileAt p) := fun w =>
  wp_fileAt (fun _ => refl_of (Asks S) w) fun _ _ => refl_of (Asks S) w

theorem asks_raiseExcept (x : Except Exc α) : Stays env (Asks S) (raiseExcept x) := by
  cases x with
  | ok a => exact .pure a
  | error e => exact .throw e

theorem asks_replace {p q : Path} (ho : S (.replace p q)) : Stays env (Asks S) (replace p q) :=
  (asks_fileAt p).bind fun _ => asks_perform ho _

end Asking

theorem unmoved_external {op : Op} (ho : isMove op = false)
    (failed done : Answer → ℕ → Host → Host) : Stays env Unmoved (external op failed done) :=
  asks_external ho failed done

theorem unmoved_perform {op : Op} (ho : isMove op = false) (done : ℕ → Host → Host) :
    Stays env Unmoved (perform op done) :=
  asks_perform ho done

theorem unmoved_systemctl (v : Verb) (s : Service) : Stays env Unmoved (systemctl v s) :=
  (unmoved_external rfl _ _).bind fun _ => .pure _

theorem unmoved_getStatus (s : Service) : Stays env Unmoved (getStatus s) :=
  (unmoved_external rfl _ _).bind fun _ => .bind .readHost fun _ => .pure _

theorem unmoved_fetch (lib : Library) (url : Str) : Stays env Unmoved (fetch lib url) :=
  (unmoved_external rfl _ _).bind fun _ => .ite (.pure _) (.throw _)

theorem unmoved_writeFile (p : Path) (data : Bytes) : Stays env Unmoved (writeFile p data) :=
  (unmoved_external rfl _ _).bind fun _ => .pure _

theorem unmoved_writeArchive (filename : Str) (archive : Bytes) :
    Stays env Unmoved (writeArchive filename archive) :=
  .ite (.throw _) (unmoved_writeFile _ _)

theorem unmoved_chmod (p : Path) (mode : ℕ) : Stays env Unmoved (chmod p mode) :=
  (asks_fileAt p).bind fun _ => unmoved_perform rfl _

theorem unmoved_extractMembers (ms : List TarMember) (found : List Tool) :
    Stays env Unmoved (extractMembers ms found) := by
  induction ms generalizing found with
  | nil => exact .pure _
  | cons m ms ih =>
    rw [extractMembers]
    cases toolMember m with
    | none => exact ih found
    | some tc =>
      exact (unmoved_writeFile _ _).bind fun _ => (unmoved_chmod _ _).bind fun _ => ih _

theorem unmoved_extractBinaries (lib : Library) (archive : Bytes) (version : Str) :
    Stays env Unmoved (extractBinaries lib archive version) := by
  refine (unmoved_external rfl _ _).bind fun _ => ?_
  cases lib.tarMembers archive with
  | none => exact .throw _
  | some ms => exact (unmoved_extractMembers ms []).bind fun _ => .runIf fun _ => .throw _

theorem unmoved_validateVersion (lib : Library) (t : Tool) (version : Str) :
    Stays env Unmoved (validateVersion lib t version) :=
  (unmoved_external rfl _ _).bind fun _ => (asks_fileAt _).bind fun _ =>
    (asks_raiseExcept _).bind fun _ => (asks_raiseExcept _).bind fun _ => .runIf fun _ => .throw _

theorem unmoved_pollVersion (user password : Str) (n : ℕ) :
    Stays env Unmoved (pollVersion user password n) := by
  induction n with
  | zero => exact .pure _
  | succ n ih =>
    refine (unmoved_external rfl _ _).bind fun a => ?_
    cases a.reply with
    | unavailable => exact ih
    | subversion s =>
      simp only
      cases Backtracking.search subversionPattern s with
      | none => exact ih
      | some m =>
        refine Stays.now.bind fun t => Stays.bind (Stays.modifyHost fun w => ?_) fun _ => .pure _
        exact .of_history_eq rfl

theorem unmoved_attempt {m : Proc Unit} (hm : Stays env Unmoved m) (l : Attempt) :
    Stays env Unmoved (attempt l m) :=
  hm.outcome.bind fun _ => Stays.bind (Stays.modifyHost fun _ => .of_history_eq rfl) fun _ =>
    .pure _

theorem unmoved_stopForActivation (config : Config) :
    Stays env Unmoved (stopForActivation (nodeControl config)) := by
  refine (unmoved_systemctl _ _).tryCatch fun exc =>
    (unmoved_attempt (unmoved_systemctl _ _) _).bind fun r => ?_
  cases r <;> exact .throw _

theorem unmoved_startReplacement (lib : Library) (version : Str) (wasRunning : Bool)
    (config : Config) : Stays env Unmoved (startReplacement lib version wasRunning (nodeControl config)) := by
  refine .runIf fun _ => (unmoved_systemctl _ _).bind fun _ =>
    (unmoved_pollVersion _ _ _).bind fun running => ?_
  cases running with
  | none => exact .throw _
  | some v =>
    exact (asks_raiseExcept _).bind fun _ => (asks_raiseExcept _).bind fun _ =>
      .runIf fun _ => .throw _

/-- A step of the loop of `_restore` for `t` raised. -/
def RestoreFailed (env : Environment) (w w' : World) (t : Tool) : Prop :=
  Answered env (·.raises.isSome) w w' (.unlink t.destination) ∨
    Answered env (·.raises.isSome) w w' (.replace t.backup t.destination)

/-- The old binary was moved to the staging directory. -/
def MovedOut (env : Environment) (w w' : World) (t : Tool) : Prop :=
  Answered env (·.raises = none) w w' (.replace t.destination t.backup)

/-- The staged binary was moved to its destination. -/
def MovedIn (env : Environment) (w w' : World) (t : Tool) : Prop :=
  Answered env (·.raises = none) w w' (.replace t.staged t.destination)

/-- A stretch of a run that unlinks and renames nothing. -/
structure Still (w w' : World) : Prop where
  unmoved : Unmoved w w'
  files : w'.host.files = w.host.files

instance : Std.Refl Still := ⟨fun w => ⟨refl_of Unmoved w, rfl⟩⟩

instance : IsTrans World Still := ⟨fun _ _ _ h h' =>
  ⟨trans_of Unmoved h.unmoved h'.unmoved, h'.files.trans h.files⟩⟩

theorem destination_inj {t t' : Tool} : t.destination = t'.destination ↔ t = t' :=
  ⟨fun h => by_contra fun hne => destination_ne hne h, fun h => h ▸ rfl⟩

theorem restoreFailed_iff {w₁ w' : World} (h₁ : w.history <:+ w₁.history)
    (h₂ : w₁.history <:+ w'.history) (t : Tool) :
    RestoreFailed env w w' t ↔ RestoreFailed env w w₁ t ∨ RestoreFailed env w₁ w' t := by
  simp only [RestoreFailed, answered_iff h₁ h₂]
  exact or_or_or_comm

theorem restoreFailed_unlink {w' : World} {t : Tool}
    (h : w'.history = .unlink t.destination :: w.history) (t' : Tool) :
    RestoreFailed env w w' t' ↔
      t' = t ∧ (env w.history (.unlink t.destination)).raises.isSome := by
  simp only [RestoreFailed, answered_cons h, Op.unlink.injEq, destination_inj, reduceCtorEq,
    false_and, or_false]
  apply and_congr_right
  rintro rfl
  rfl

theorem restoreFailed_replace {w' : World} {t : Tool}
    (h : w'.history = .replace t.backup t.destination :: w.history) (t' : Tool) :
    RestoreFailed env w w' t' ↔
      t' = t ∧ (env w.history (.replace t.backup t.destination)).raises.isSome := by
  have hop : Op.replace t'.backup t'.destination = .replace t.backup t.destination ↔ t' = t :=
    ⟨fun heq => destination_inj.1 (Op.replace.inj heq).2, fun heq => heq ▸ rfl⟩
  simp only [RestoreFailed, answered_cons h, hop, reduceCtorEq, false_and, false_or]
  apply and_congr_right
  rintro rfl
  rfl

/-- One turn of the loop raises exactly when one of its own steps does. -/
theorem restoreBinary_failed {t : Tool} {b : Option Path} (hb : ∀ p, b = some p → p = t.backup) :
    wp env (restoreBinary t b) (fun _ w' => ∀ t', ¬ RestoreFailed env w w' t')
      (fun _ w' => ∀ t', RestoreFailed env w w' t' ↔ t' = t) w := by
  have unlinked : ∀ w₁ : World, w₁.history = .unlink t.destination :: w.history →
      (env w.history (.unlink t.destination)).raises = none →
      ∀ t', ¬ RestoreFailed env w w₁ t' := by
    intro w₁ h₁ hnone t'
    rw [restoreFailed_unlink h₁, hnone]
    simp
  have raised : ∀ m (h : Host), (env w.history (.unlink t.destination)).raises = some m →
      ∀ t', RestoreFailed env w ⟨.unlink t.destination :: w.history, h⟩ t' ↔ t' = t := by
    intro m h hm t'
    rw [restoreFailed_unlink rfl, hm]
    simp
  cases b with
  | none => exact wp_perform (fun m hm => raised m _ hm) fun hnone => unlinked _ rfl hnone
  | some b =>
    obtain rfl := hb b rfl
    simp only [restoreBinary, wp_bind, wp_fileExists, wp_runIf]
    refine wp_perform (fun m hm => raised m _ hm) fun hnone => ?_
    generalize hw₁ : World.mk (Op.unlink t.destination :: w.history)
      (w.host.setFile t.destination none (w.history.length + 1)) = w₁
    have h₁ : w₁.history = .unlink t.destination :: w.history := by rw [← hw₁]
    have hnot := unlinked w₁ h₁ hnone
    split
    · rename_i hpresent
      obtain ⟨f, hf⟩ := Option.isSome_iff_exists.1 hpresent
      -- the second step, from the world behind the first
      have second : ∀ w' : World, w'.history = .replace t.backup t.destination :: w₁.history →
          ∀ t', RestoreFailed env w w' t' ↔
            t' = t ∧ (env w₁.history (.replace t.backup t.destination)).raises.isSome := by
        intro w' h' t'
        have hsuffix : w.history <:+ w₁.history := h₁ ▸ List.suffix_cons _ _
        rw [restoreFailed_iff hsuffix (h' ▸ List.suffix_cons _ _),
          or_iff_right (hnot t'), restoreFailed_replace h']
      rw [replace, wp_bind]
      apply wp_fileAt
      · intro habsent
        simp [hf] at habsent
      · intro f' _
        refine wp_perform (fun m hm t' => ?_) fun hm t' => ?_
        · rw [second _ rfl, hm]
          simp
        · rw [second _ rfl, hm]
          simp
    · exact hnot

/-- How far the loop of `_restore` got with a map for the binaries `d`. -/
inductive Restored (env : Environment) (d : Tool → Option FileState)
    (backups : List (Tool × Option Path)) (w w' : World) : Prop
  | whole (binaries : ∀ t, w'.host.files t.destination = d t)
      (failed : ∀ t, ¬ RestoreFailed env w w' t)
  /-- It ended at the entry of `t`. -/
  | cut (front : List (Tool × Option Path)) (t : Tool) (b : Option Path)
      (rest : List (Tool × Option Path)) (split : backups = front ++ (t, b) :: rest)
      (failed : ∀ t', RestoreFailed env w w' t' ↔ t' = t)
      (binaries : ∀ t', t' ≠ t → t' ∉ rest.map Prod.fst → w'.host.files t'.destination = d t')
      (left : ∀ t' ∈ rest.map Prod.fst,
        w'.host.files t'.destination = w.host.files t'.destination)

def IsRestoreStep (o : Op) : Prop :=
  ∃ t : Tool, o = .unlink t.destination ∨ o = .replace t.backup t.destination

theorem asks_restoreBinary {t : Tool} {b : Option Path} (hb : ∀ p, b = some p → p = t.backup) :
    Stays env (Asks IsRestoreStep) (restoreBinary t b) := by
  cases b with
  | none => exact asks_perform ⟨t, .inl rfl⟩ _
  | some b =>
    obtain rfl := hb b rfl
    refine (asks_perform ⟨t, .inl rfl⟩ _).bind fun _ => Stays.bind (fun w => ?_) fun present =>
      .runIf fun _ => asks_replace ⟨t, .inr rfl⟩
    exact refl_of (Asks IsRestoreStep) w

theorem asks_restore (backups : List (Tool × Option Path)) (hb : OwnBackups backups) :
    Stays env (Asks IsRestoreStep) (restore backups) := by
  induction backups with
  | nil => exact .pure _
  | cons e backups ih =>
    exact (asks_restoreBinary (hb e (by simp))).bind fun _ =>
      ih fun e' he' => hb e' (by simp [he'])

theorem restoreBinary_others {t : Tool} {b : Option Path} (hb : ∀ p, b = some p → p = t.backup) :
    Stays env (fun w w' => ∀ t', t' ≠ t →
      w'.host.files t'.destination = w.host.files t'.destination) (restoreBinary t b) := by
  let S : Path → Prop := fun p => p = t.destination ∨ p = t.backup
  have frame : Stays env (SameOutside S) (restoreBinary t b) :=
    (respects_sameOutside S).restoreBinary (.inl rfl) fun p hp => .inr (hb p hp)
  refine frame.mono fun w w' h t' hne => (h _ ?_).1
  rintro (heq | heq)
  · exact destination_ne hne heq
  · exact backup_ne_destination t t' heq.symm

theorem restore_report {d : Tool → Option FileState} (backups : List (Tool × Option Path))
    (hr : Restorable d backups w.host) :
    wp env (restore backups) (fun _ w' => Restored env d backups w w')
      (fun _ w' => Restored env d backups w w') w := by
  induction backups generalizing w with
  | nil =>
    have hnone : ∀ t, ¬ RestoreFailed env w w t := fun t h => by
      have hsame : Unmoved w w := refl_of Unmoved w
      exact h.elim (hsame.not_answered (by simp [isMove])) (hsame.not_answered (by simp [isMove]))
    exact .whole (fun t => hr.kept t (by simp)) hnone
  | cons e backups ih =>
    obtain ⟨t, b⟩ := e
    have hown : OwnBackups ((t, b) :: backups) := hr.ownBackups
    have hb : ∀ p, b = some p → p = t.backup := hown (t, b) (by simp)
    obtain ⟨ht, -⟩ := List.nodup_cons.1 hr.nodup
    have hne : ∀ t' ∈ backups.map Prod.fst, t' ≠ t := fun t' ht' heq => ht (heq ▸ ht')
    have turn : wp env (restoreBinary t b) _ _ w :=
      wp_and (wp_and (restoreBinary_spec hr) (restoreBinary_failed hb))
        (wp_and (restoreBinary_others hb w) (asks_restoreBinary hb w))
    rw [restore, wp_bind]
    refine wp_mono turn (fun _ w₁ h₁ => ?_) fun _ w' h => ?_
    · obtain ⟨⟨hr₁, hnone⟩, hothers, hasks⟩ := h₁
      have htail : Stays env _ _ := asks_restore backups hr₁.ownBackups
      -- the steps behind this turn are those of the tail
      have later : ∀ w', Asks IsRestoreStep w₁ w' → Restored env d backups w₁ w' →
          Restored env d ((t, b) :: backups) w w' := by
        intro w' hasks' hrest
        have hiff : ∀ t', RestoreFailed env w w' t' ↔ RestoreFailed env w₁ w' t' := fun t' =>
          (restoreFailed_iff hasks.suffix hasks'.suffix t').trans (or_iff_right (hnone t'))
        cases hrest with
        | whole hall hfailed => exact .whole hall fun t' => (hiff t').not.2 (hfailed t')
        | cut front t₁ b₁ rest hsplit hfailed hback hleft =>
          refine .cut ((t, b) :: front) t₁ b₁ rest (by rw [hsplit, List.cons_append])
            (fun t' => (hiff t').trans (hfailed t')) hback fun t' ht' => ?_
          have hmem : t' ∈ backups.map Prod.fst := by
            rw [hsplit, List.map_append]
            exact List.mem_append_right _ (List.mem_cons_of_mem _ ht')
          rw [hleft t' ht', hothers t' (hne t' hmem)]
      refine wp_mono (wp_and (ih hr₁) (htail w₁)) ?_ ?_
      · exact fun _ w' h => later w' h.2 h.1
      · exact fun _ w' h => later w' h.2 h.1
    · obtain ⟨⟨-, hfailed⟩, hothers, -⟩ := h
      refine .cut [] t b backups rfl hfailed (fun t' ht' hmem => ?_) fun t' ht' => ?_
      · rw [hothers t' ht']
        exact hr.kept t' (by simp [ht', hmem])
      · exact hothers t' (hne t' ht')

/-- A step of the loop of `_swap_binaries`. -/
def IsSwapStep (o : Op) : Prop :=
  ∃ t : Tool, o = .replace t.destination t.backup ∨ o = .replace t.staged t.destination

theorem moveOut_inj {t t' : Tool} :
    Op.replace t'.destination t'.backup = .replace t.destination t.backup ↔ t' = t :=
  ⟨fun h => destination_inj.1 (Op.replace.inj h).1, fun h => h ▸ rfl⟩

theorem moveIn_inj {t t' : Tool} :
    Op.replace t'.staged t'.destination = .replace t.staged t.destination ↔ t' = t :=
  ⟨fun h => destination_inj.1 (Op.replace.inj h).2, fun h => h ▸ rfl⟩

theorem moveOut_ne_moveIn (t t' : Tool) :
    Op.replace t.destination t.backup ≠ .replace t'.staged t'.destination := fun h =>
  destination_ne_staged t t' (Op.replace.inj h).1

/-- How the old binary of `t` got out of the way, with the map's entry. -/
inductive Aside (env : Environment) (t : Tool) (w : World) : Option Path → World → Prop
  | absent : w.host.files t.destination = none → Aside env t w none w
  | present (f : FileState) (n : ℕ) : w.host.files t.destination = some f →
      (env w.history (.replace t.destination t.backup)).raises = none →
      Aside env t w (some t.backup) ⟨.replace t.destination t.backup :: w.history,
        (w.host.setFile t.backup (some f) n).setFile t.destination none n⟩

namespace Aside

variable {t : Tool} {b : Option Path} {w₁ : World}

theorem movedAside (h : Aside env t w b w₁) : MovedAside t w.host b w₁.host := by
  cases h with
  | absent hnone => exact .absent hnone
  | present f n hsome _ => exact .present f n hsome

theorem asks (h : Aside env t w b w₁) : Asks IsSwapStep w w₁ := by
  cases h with
  | absent => exact refl_of (Asks IsSwapStep) w
  | present => exact .of_history_cons ⟨t, .inl rfl⟩ rfl

theorem movedOut (h : Aside env t w b w₁) (t' : Tool) :
    MovedOut env w w₁ t' ↔ t' = t ∧ b = some t.backup := by
  cases h with
  | absent =>
    have hsame : Unmoved w w := refl_of Unmoved w
    exact iff_of_false (hsame.not_answered (by simp [isMove])) (by simp)
  | present f n _ hdone =>
    rw [MovedOut, answered_cons rfl, moveOut_inj]
    constructor
    · exact fun h => ⟨h.1, rfl⟩
    · rintro ⟨rfl, -⟩
      exact ⟨rfl, hdone⟩

theorem not_movedIn (h : Aside env t w b w₁) (t' : Tool) : ¬ MovedIn env w w₁ t' := by
  cases h with
  | absent =>
    have hsame : Unmoved w w := refl_of Unmoved w
    exact hsame.not_answered (by simp [isMove])
  | present =>
    rw [MovedIn, answered_cons rfl]
    exact fun h => moveOut_ne_moveIn t t' h.1.symm

theorem destination_eq (h : Aside env t w b w₁) : w₁.host.files t.destination = none := by
  cases h with
  | absent hnone => exact hnone
  | present => exact setFile_files_self _ _ _ _

end Aside

/-- One turn of the swap, with the staged binary at hand: the first rename raises, or the
old binary is aside and the second rename raises or is done. -/
theorem wp_swapTurn {Q : List (Tool × Option Path) × Option Exc → World → Prop}
    {E : Exc → World → Prop} {t : Tool} {backups : List (Tool × Option Path)} {f : FileState}
    (hstaged : w.host.files t.staged = some f)
    (hfirst : ∀ e m, (env w.history (.replace t.destination t.backup)).raises = some m →
      Q (backups, some e) ⟨.replace t.destination t.backup :: w.history, w.host⟩)
    (hsecond : ∀ b w₁ e m, Aside env t w b w₁ →
      (env w₁.history (.replace t.staged t.destination)).raises = some m →
      Q (backups ++ [(t, b)], some e)
        ⟨.replace t.staged t.destination :: w₁.history, w₁.host⟩)
    (hdone : ∀ b w₁ n, Aside env t w b w₁ →
      (env w₁.history (.replace t.staged t.destination)).raises = none →
      Q (backups ++ [(t, b)], none) ⟨.replace t.staged t.destination :: w₁.history,
        (w₁.host.setFile t.destination (some f) n).setFile t.staged none n⟩) :
    wp env (swapBinary t backups) Q E w := by
  -- the second rename, from any world with the old binary aside
  have swapped : ∀ b (w₁ : World), Aside env t w b w₁ →
      wp env (outcome (replace t.staged t.destination))
        (fun r => Q (backups ++ [(t, b)], r)) E w₁ := by
    intro b w₁ haside
    have hfile : w₁.host.files t.staged = some f := by
      rw [haside.movedAside.files_eq (destination_ne_staged t t).symm (backup_ne_staged t t).symm,
        hstaged]
    simp only [replace, wp_outcome, wp_bind]
    refine wp_fileAt (fun habsent => ?_) fun f' hf' => ?_
    · exact absurd (hfile.symm.trans habsent) (by simp)
    · obtain rfl : f = f' := Option.some.inj (hfile.symm.trans hf')
      exact wp_perform (fun m hm => hsecond b w₁ _ m haside hm) fun hm => hdone b w₁ _ haside hm
  simp only [swapBinary, moveAside, wp_bind, wp_fileExists, wp_ite]
  cases hdest : w.host.files t.destination with
  | none =>
    simp only [Option.isSome_none, Bool.false_eq_true, ↓reduceIte, wp_pure, wp_bind]
    exact swapped none w (.absent hdest)
  | some old =>
    simp only [Option.isSome_some, ↓reduceIte, wp_outcome, replace, wp_bind]
    refine wp_fileAt (fun habsent => ?_) fun old' hold' => ?_
    · exact absurd (hdest.symm.trans habsent) (by simp)
    · refine wp_perform (fun m hm => hfirst _ m hm) fun hm => ?_
      have hrest := swapped _ _ (.present old' (w.history.length + 1) hold' hm)
      simpa only [replace, wp_outcome, wp_bind, wp_pure] using hrest

/-- Where the binary of an entry stands: the staged one is in place, or there is none. -/
def Placed (env : Environment) (new : Tool → FileState) (w w' : World) (t : Tool) : Prop :=
  MovedIn env w w' t ∧ w'.host.files t.destination = some (new t) ∨
    ¬ MovedIn env w w' t ∧ w'.host.files t.destination = none

/-- The backup map tells what was moved since `w`. -/
structure Swapped (env : Environment) (new : Tool → FileState) (w w' : World)
    (backups : List (Tool × Option Path)) : Prop where
  asks : Asks IsSwapStep w w'
  movedOut : ∀ t, MovedOut env w w' t ↔ (t, some t.backup) ∈ backups
  movedIn : ∀ t, MovedIn env w w' t → t ∈ backups.map Prod.fst
  placed : ∀ t ∈ backups.map Prod.fst, Placed env new w w' t

theorem movedOut_iff {w₁ w' : World} (h₁ : w.history <:+ w₁.history)
    (h₂ : w₁.history <:+ w'.history) (t : Tool) :
    MovedOut env w w' t ↔ MovedOut env w w₁ t ∨ MovedOut env w₁ w' t := answered_iff h₁ h₂

theorem movedIn_iff {w₁ w' : World} (h₁ : w.history <:+ w₁.history)
    (h₂ : w₁.history <:+ w'.history) (t : Tool) :
    MovedIn env w w' t ↔ MovedIn env w w₁ t ∨ MovedIn env w₁ w' t := answered_iff h₁ h₂

theorem Placed.of_step {new : Tool → FileState} {t : Tool} {w₁ w' : World}
    (h₁ : w.history <:+ w₁.history) (h₂ : w₁.history <:+ w'.history)
    (hp : Placed env new w w₁ t) (hin : ¬ MovedIn env w₁ w' t)
    (heq : w'.host.files t.destination = w₁.host.files t.destination) :
    Placed env new w w' t := by
  have hiff : MovedIn env w w' t ↔ MovedIn env w w₁ t :=
    (movedIn_iff h₁ h₂ t).trans (or_iff_left hin)
  rw [Placed, hiff, heq]
  exact hp

/-- The first rename of a turn raised. -/
theorem Swapped.skip {new : Tool → FileState} {backups : List (Tool × Option Path)} {t : Tool}
    {w₁ : World} {m : Str} (hs : Swapped env new w w₁ backups)
    (hm : (env w₁.history (.replace t.destination t.backup)).raises = some m) :
    Swapped env new w ⟨.replace t.destination t.backup :: w₁.history, w₁.host⟩ backups := by
  have hstep : Asks IsSwapStep w₁ ⟨.replace t.destination t.backup :: w₁.history, w₁.host⟩ :=
    .of_history_cons ⟨t, .inl rfl⟩ rfl
  have hin : ∀ t', ¬ MovedIn env w₁
      ⟨.replace t.destination t.backup :: w₁.history, w₁.host⟩ t' := by
    intro t'
    rw [MovedIn, answered_cons rfl]
    exact fun h => moveOut_ne_moveIn t t' h.1.symm
  have hout : ∀ t', ¬ MovedOut env w₁
      ⟨.replace t.destination t.backup :: w₁.history, w₁.host⟩ t' := by
    intro t'
    rw [MovedOut, answered_cons rfl, moveOut_inj]
    rintro ⟨rfl, hnone⟩
    rw [hm] at hnone
    cases hnone
  constructor
  · exact trans_of (Asks IsSwapStep) hs.asks hstep
  · intro t'
    rw [movedOut_iff hs.asks.suffix hstep.suffix, or_iff_left (hout t')]
    exact hs.movedOut t'
  · intro t' h
    rw [movedIn_iff hs.asks.suffix hstep.suffix, or_iff_left (hin t')] at h
    exact hs.movedIn t' h
  · intro t' ht'
    exact (hs.placed t' ht').of_step hs.asks.suffix hstep.suffix (hin t') rfl

/-- The old binary got out of the way, and the second rename raised or was done. -/
theorem Swapped.turn {new : Tool → FileState} {backups : List (Tool × Option Path)} {t : Tool}
    {b : Option Path} {w₁ w₂ w' : World} (hs : Swapped env new w w₁ backups)
    (ht : t ∉ backups.map Prod.fst) (ha : Aside env t w₁ b w₂)
    (hw' : w'.history = .replace t.staged t.destination :: w₂.history)
    (hothers : ∀ t', t' ≠ t → w'.host.files t'.destination = w₂.host.files t'.destination)
    (hraised : ∀ m, (env w₂.history (.replace t.staged t.destination)).raises = some m →
      w'.host.files t.destination = none)
    (hdone : (env w₂.history (.replace t.staged t.destination)).raises = none →
      w'.host.files t.destination = some (new t)) :
    Swapped env new w w' (backups ++ [(t, b)]) := by
  have hsecond : Asks IsSwapStep w₂ w' := .of_history_cons ⟨t, .inr rfl⟩ hw'
  have hstep : Asks IsSwapStep w₁ w' := trans_of (Asks IsSwapStep) ha.asks hsecond
  have hin : ∀ t', MovedIn env w₁ w' t' ↔
      t' = t ∧ (env w₂.history (.replace t'.staged t'.destination)).raises = none := by
    intro t'
    rw [movedIn_iff ha.asks.suffix hsecond.suffix, or_iff_right (ha.not_movedIn t'), MovedIn,
      answered_cons hw', moveIn_inj]
  have hout : ∀ t', MovedOut env w₁ w' t' ↔ t' = t ∧ b = some t.backup := by
    intro t'
    have hnot : ¬ MovedOut env w₂ w' t' := by
      rw [MovedOut, answered_cons hw']
      exact fun h => moveOut_ne_moveIn t' t h.1
    rw [movedOut_iff ha.asks.suffix hsecond.suffix, or_iff_left hnot]
    exact ha.movedOut t'
  have hfresh : ¬ MovedIn env w w₁ t := fun h => ht (hs.movedIn t h)
  constructor
  · exact trans_of (Asks IsSwapStep) hs.asks hstep
  · intro t'
    rw [movedOut_iff hs.asks.suffix hstep.suffix, hs.movedOut t', hout t', List.mem_append,
      List.mem_singleton, Prod.mk.injEq]
    apply or_congr_right
    apply and_congr_right
    rintro rfl
    exact eq_comm
  · intro t' h
    rw [List.map_append, List.mem_append]
    rw [movedIn_iff hs.asks.suffix hstep.suffix, hin t'] at h
    rcases h with h | ⟨rfl, -⟩
    · exact .inl (hs.movedIn t' h)
    · exact .inr (by simp)
  · intro t' ht'
    by_cases heq : t' = t
    · subst heq
      have hiff : MovedIn env w w' t' ↔
          (env w₂.history (.replace t'.staged t'.destination)).raises = none := by
        rw [movedIn_iff hs.asks.suffix hstep.suffix, or_iff_right hfresh, hin]
        simp
      rw [Placed, hiff]
      cases hr : (env w₂.history (.replace t'.staged t'.destination)).raises with
      | none => exact .inl ⟨rfl, hdone hr⟩
      | some m => exact .inr ⟨by simp, hraised m hr⟩
    · have hmem : t' ∈ backups.map Prod.fst := by simpa [heq] using ht'
      apply (hs.placed t' hmem).of_step hs.asks.suffix hstep.suffix
      · exact fun h => heq ((hin t').1 h).1
      · rw [hothers t' heq, ha.movedAside.files_eq (destination_ne heq)
          (backup_ne_destination t t').symm]

/-- The loop under way: what is in the map and what is still to come are all the tools. -/
structure Underway (env : Environment) (d : Tool → Option FileState) (new : Tool → FileState)
    (ts : List Tool) (backups : List (Tool × Option Path)) (w w' : World) : Prop where
  swapping : Swapping d new ts backups w'.host
  swapped : Swapped env new w w' backups
  order : backups.map Prod.fst ++ ts = Tool.all

/-- However far the swap got. -/
structure SwapReport (env : Environment) (d : Tool → Option FileState) (new : Tool → FileState)
    (backups : List (Tool × Option Path)) (w w' : World) : Prop where
  restorable : Restorable d backups w'.host
  swapped : Swapped env new w w' backups
  order : backups.map Prod.fst <+: Tool.all

theorem swapBinaries_report {d : Tool → Option FileState} {new : Tool → FileState} {w₀ : World}
    (ts : List Tool) (backups : List (Tool × Option Path))
    (hu : Underway env d new ts backups w₀ w) :
    wp env (swapBinaries ts backups) (fun r w' => SwapReport env d new r.1 w₀ w')
      (fun _ _ => False) w := by
  induction ts generalizing backups w with
  | nil => exact ⟨hu.swapping.restorable, hu.swapped, ⟨[], hu.order⟩⟩
  | cons t ts ih =>
    obtain ⟨hs, hswapped, horder⟩ := hu
    obtain ⟨ht, hstaged⟩ := hs.waiting t (by simp)
    have hnext : ∀ b, (backups ++ [(t, b)]).map Prod.fst ++ ts = Tool.all := fun b => by
      simpa using horder
    rw [swapBinaries, wp_bind]
    refine wp_swapTurn hstaged (fun e m hm => ?_) (fun b w₁ e m ha hm => ?_)
      fun b w₁ n ha hdone => ?_
    · exact ⟨hs.restorable, hswapped.skip hm, ⟨t :: ts, horder⟩⟩
    · refine ⟨hs.restorable.moveAside ht ha.movedAside, ?_, ⟨ts, hnext b⟩⟩
      refine hswapped.turn ht ha rfl (fun _ _ => rfl) (fun _ _ => ha.destination_eq) fun hnone => ?_
      rw [hm] at hnone
      cases hnone
    · apply ih
      refine ⟨hs.step ha.movedAside n, ?_, hnext b⟩
      refine hswapped.turn ht ha rfl (fun t' hne => ?_) (fun m hm => ?_) fun _ => ?_
      · rw [setFile_files_ne (destination_ne_staged t' t), setFile_files_ne (destination_ne hne)]
      · rw [hdone] at hm
        cases hm
      · rw [setFile_files_ne (destination_ne_staged t t), setFile_files_self]

/-- The one stretch of a rollback that moves files is the loop of `_restore`. -/
def RolledBack (env : Environment) (d : Tool → Option FileState)
    (backups : List (Tool × Option Path)) (w w' : World) : Prop :=
  ∃ w₁ w₂, Still w w₁ ∧ Asks IsRestoreStep w₁ w₂ ∧ Restored env d backups w₁ w₂ ∧ Still w₂ w'

theorem still_systemctl (v : Verb) (s : Service) : Stays env Still (systemctl v s) := fun w =>
  wp_mono (wp_and (unmoved_systemctl v s w)
    ((respects_sameOutside fun _ => False).systemctl trivial v w))
    (fun _ _ h => ⟨h.1, funext fun p => (h.2 p id).1⟩)
    fun _ _ h => ⟨h.1, funext fun p => (h.2 p id).1⟩

theorem still_attemptAll {ops : List (Attempt × Proc Unit)}
    (h : ∀ op ∈ ops, Stays env Still op.2) : Stays env Still (attemptAll ops) := by
  induction ops with
  | nil => exact .pure _
  | cons op ops ih =>
    obtain ⟨l, m⟩ := op
    have hm : Stays env Still m := h (l, m) (by simp)
    have hnote : ∀ r, Stays env Still (note l r) := fun r =>
      Stays.modifyHost fun w => ⟨.of_history_eq rfl, rfl⟩
    have hattempt : Stays env Still (attempt l m) :=
      hm.outcome.bind fun r => (hnote _).bind fun _ => .pure _
    exact hattempt.bind fun _ => (ih fun op hop => h op (by simp [hop])).bind fun _ => .pure _

/-- Guarded steps raise nothing. -/
theorem attemptAll_returns (ops : List (Attempt × Proc Unit)) (w : World) :
    wp env (attemptAll ops) (fun _ _ => True) (fun _ _ => False) w := by
  induction ops generalizing w with
  | nil => trivial
  | cons op ops ih =>
    obtain ⟨l, m⟩ := op
    rw [wp_attemptAll_cons]
    exact wp_mono (wp_trivial m w) (fun _ w' _ => ih _) fun _ w' _ =>
      wp_mono (ih _) (fun _ _ h => h) fun _ _ h => h

theorem rollback_report {d : Tool → Option FileState} {backups : List (Tool × Option Path)}
    (hr : Restorable d backups w.host) (stopIt startIt : Bool) (config : Config) (cause : Exc) :
    wp env (rollback backups stopIt startIt (nodeControl config) cause)
      (fun _ w' => RolledBack env d backups w w') (fun _ w' => RolledBack env d backups w w') w := by
  have service : ∀ (c : Bool) (l : Attempt) (v : Verb) (w₀ : World),
      wp env (attemptAll (if c then [(l, systemctl v .node)] else [])) (fun _ w' => Still w₀ w')
        (fun _ _ => False) w₀ := by
    intro c l v w₀
    have hstill : Stays env Still (attemptAll (if c then [(l, systemctl v .node)] else [])) := by
      refine still_attemptAll fun op hop => ?_
      rw [List.mem_ite_nil_right, List.mem_singleton] at hop
      exact hop.2 ▸ still_systemctl v .node
    exact wp_mono (wp_and (hstill w₀) (attemptAll_returns _ w₀)) (fun _ _ h => h.1)
      fun _ _ h => h.2
  have loop : ∀ w₁ : World, Still w w₁ →
      let looped := fun w₂ : World => Asks IsRestoreStep w₁ w₂ ∧ Restored env d backups w₁ w₂
      wp env (restore backups) (fun _ => looped) (fun _ => looped) w₁ := by
    intro w₁ h₁
    have hr₁ : Restorable d backups w₁.host := hr.of_files_eq h₁.files
    exact wp_and (asks_restore backups hr.ownBackups w₁) (restore_report backups hr₁)
  have after : ∀ (w₁ w₂ w₃ : World) (l : Attempt) (r : Option Str), Still w w₁ →
      Asks IsRestoreStep w₁ w₂ ∧ Restored env d backups w₁ w₂ →
      Still ⟨w₂.history, w₂.host.noted l r⟩ w₃ → RolledBack env d backups w w₃ := by
    intro w₁ w₂ w₃ l r h₁ h₂ h₃
    have hnoted : Still w₂ ⟨w₂.history, w₂.host.noted l r⟩ := ⟨.of_history_eq rfl, rfl⟩
    exact ⟨w₁, w₂, h₁, h₂.1, h₂.2, trans_of Still hnoted h₃⟩
  rw [rollback, wp_bind]
  refine wp_mono (Q := fun _ w' => RolledBack env d backups w w') ?_ (fun errors w' h => ?_)
    fun _ _ h => h
  · rw [List.append_assoc, wp_attemptAll_append]
    refine wp_mono (service stopIt .stopReplacement .stop w) (fun _ w₁ h₁ => ?_)
      fun _ _ h => h.elim
    rw [List.singleton_append, wp_attemptAll_cons]
    refine wp_mono (loop w₁ h₁) (fun _ w₂ h₂ => ?_) fun _ w₂ h₂ => ?_
    · exact wp_mono (service startIt .startPrevious .start _)
        (fun _ w₃ h₃ => after w₁ w₂ w₃ _ _ h₁ h₂ h₃) fun _ _ h => h.elim
    · exact wp_mono (service startIt .startPrevious .start _)
        (fun _ w₃ h₃ => after w₁ w₂ w₃ _ _ h₁ h₂ h₃) fun _ _ h => h.elim
  · rw [wp_runIf]
    split <;> exact h

/-- Every binary of before is back, unless one of its own restore steps raised. -/
def OthersKept (env : Environment) (w w' : World) : Prop :=
  ∀ t f, w.host.files t.destination = some f → ¬ RestoreFailed env w w' t →
    w'.host.files t.destination = some f

/-- The loop of `_restore` ended at `bitcoind` with the old `bitcoin-cli` in the staging
directory, and no file that is the same as the old one had been moved to its place. -/
structure Stranded (env : Environment) (replacement : FileState → Prop) (w w' : World) : Prop where
  failed : RestoreFailed env w w' .bitcoind
  movedOut : MovedOut env w w' .bitcoinCli
  differs : ¬ (MovedIn env w w' .bitcoinCli ∧
    ∃ f, w.host.files (Tool.destination .bitcoinCli) = some f ∧ replacement f)

theorem not_restoreFailed_of_asks {S : Op → Prop} {w' : World} {t : Tool} (h : Asks S w w')
    (hunlink : ¬ S (.unlink t.destination)) (hback : ¬ S (.replace t.backup t.destination)) :
    ¬ RestoreFailed env w w' t := fun hf =>
  hf.elim (h.not_answered hunlink) (h.not_answered hback)

theorem not_isSwapStep_unlink (t : Tool) : ¬ IsSwapStep (.unlink t.destination) := by
  rintro ⟨t', h | h⟩ <;> cases h

theorem not_isSwapStep_back (t : Tool) : ¬ IsSwapStep (.replace t.backup t.destination) := by
  rintro ⟨t', h | h⟩
  · exact backup_ne_destination t t' (Op.replace.inj h).1
  · exact backup_ne_staged t t' (Op.replace.inj h).1

theorem not_isRestoreStep_out (t : Tool) : ¬ IsRestoreStep (.replace t.destination t.backup) := by
  rintro ⟨t', h | h⟩
  · cases h
  · exact backup_ne_destination t' t (Op.replace.inj h).1.symm

theorem not_isRestoreStep_in (t : Tool) : ¬ IsRestoreStep (.replace t.staged t.destination) := by
  rintro ⟨t', h | h⟩
  · cases h
  · exact backup_ne_staged t' t (Op.replace.inj h).1.symm

/-- The moves of a swap followed by a rollback. -/
theorem moves_of_rolledBack {new : Tool → FileState} {backups : List (Tool × Option Path)}
    {w₁ w₂ w₃ w' : World} (hs : Swapped env new w w₁ backups) (h₁₂ : Still w₁ w₂)
    (h₂₃ : Asks IsRestoreStep w₂ w₃) (h₃ : Still w₃ w') (t : Tool) :
    (RestoreFailed env w w' t ↔ RestoreFailed env w₂ w₃ t) ∧
      (MovedOut env w w' t ↔ (t, some t.backup) ∈ backups) ∧
      (MovedIn env w w' t ↔ MovedIn env w w₁ t) := by
  have s₀₂ : w.history <:+ w₂.history := hs.asks.suffix.trans h₁₂.unmoved.suffix
  have s₀₃ : w.history <:+ w₃.history := s₀₂.trans h₂₃.suffix
  have unmoved : ∀ {a b : World}, Still a b →
      ¬ RestoreFailed env a b t ∧ ¬ MovedOut env a b t ∧ ¬ MovedIn env a b t := by
    intro a b h
    refine ⟨not_restoreFailed_of_asks h.unmoved ?_ ?_, h.unmoved.not_answered ?_,
      h.unmoved.not_answered ?_⟩ <;> simp [isMove]
  obtain ⟨hf₁₂, ho₁₂, hi₁₂⟩ := unmoved h₁₂
  obtain ⟨hf₃, ho₃, hi₃⟩ := unmoved h₃
  refine ⟨?_, ?_, ?_⟩
  · have hswap : ¬ RestoreFailed env w w₁ t :=
      not_restoreFailed_of_asks hs.asks (not_isSwapStep_unlink t) (not_isSwapStep_back t)
    rw [restoreFailed_iff s₀₃ h₃.unmoved.suffix, restoreFailed_iff s₀₂ h₂₃.suffix,
      restoreFailed_iff hs.asks.suffix h₁₂.unmoved.suffix]
    simp only [hswap, hf₁₂, hf₃, false_or, or_false]
  · have hback : ¬ MovedOut env w₂ w₃ t := h₂₃.not_answered (not_isRestoreStep_out t)
    rw [movedOut_iff s₀₃ h₃.unmoved.suffix, movedOut_iff s₀₂ h₂₃.suffix,
      movedOut_iff hs.asks.suffix h₁₂.unmoved.suffix, hs.movedOut t]
    simp only [hback, ho₁₂, ho₃, or_false]
  · have hback : ¬ MovedIn env w₂ w₃ t := h₂₃.not_answered (not_isRestoreStep_in t)
    rw [movedIn_iff s₀₃ h₃.unmoved.suffix, movedIn_iff s₀₂ h₂₃.suffix,
      movedIn_iff hs.asks.suffix h₁₂.unmoved.suffix]
    simp only [hback, hi₁₂, hi₃, or_false]

/-- The map is filled in the order of the tools. -/
theorem entries_of_prefix {ts front rest : List Tool} {t : Tool} (h : ts <+: Tool.all)
    (hsplit : ts = front ++ t :: rest) :
    (t = .bitcoind ∧ front = [] ∧ (rest = [] ∨ rest = [.bitcoinCli])) ∨
      (t = .bitcoinCli ∧ front = [.bitcoind] ∧ rest = []) := by
  obtain ⟨more, hmore⟩ := h
  rw [hsplit, Tool.all, List.append_assoc, List.cons_append] at hmore
  rcases front with _ | ⟨t₁, _ | ⟨t₂, front⟩⟩
  · simp only [List.nil_append, List.cons.injEq] at hmore
    refine .inl ⟨hmore.1, rfl, ?_⟩
    rcases rest with _ | ⟨t₁, rest⟩
    · exact .inl rfl
    · simp only [List.cons_append, List.cons.injEq, List.append_eq_nil_iff] at hmore
      exact .inr (by rw [hmore.2.1, hmore.2.2.1])
  · simp only [List.cons_append, List.nil_append, List.cons.injEq, List.append_eq_nil_iff] at hmore
    exact .inr ⟨hmore.2.1, by rw [hmore.1], hmore.2.2.1⟩
  · simp at hmore

/-- The loop ended at `bitcoind` and left `bitcoin-cli` where the swap had put it. -/
theorem othersKept_iff_of_left {new : Tool → FileState} {backups : List (Tool × Option Path)}
    {w₁ w' : World} (hs : SwapReport env (fun t => w.host.files t.destination) new backups w w₁)
    (hkey : Tool.bitcoinCli ∈ backups.map Prod.fst) (hfailed : RestoreFailed env w w' .bitcoind)
    (hout : MovedOut env w w' .bitcoinCli ↔ (Tool.bitcoinCli, some (Tool.backup .bitcoinCli)) ∈ backups)
    (hin : MovedIn env w w' .bitcoinCli ↔ MovedIn env w w₁ .bitcoinCli)
    (hcli : ¬ RestoreFailed env w w' .bitcoinCli)
    (hleft : w'.host.files (Tool.destination .bitcoinCli) =
      w₁.host.files (Tool.destination .bitcoinCli)) :
    OthersKept env w w' ↔ ¬ Stranded env (· = new .bitcoinCli) w w' := by
  have hkept : OthersKept env w w' ↔ ∀ f, w.host.files (Tool.destination .bitcoinCli) = some f →
      w₁.host.files (Tool.destination .bitcoinCli) = some f := by
    constructor
    · exact fun h f hf => hleft ▸ h .bitcoinCli f hf hcli
    · intro h t f hf hn
      cases t with
      | bitcoind => exact absurd hfailed hn
      | bitcoinCli => exact hleft.trans (h f hf)
  obtain ⟨⟨t, b⟩, hmem, rfl⟩ := List.mem_map.1 hkey
  rw [hkept]
  cases b with
  | none =>
    have hnone := hs.restorable.absent _ hmem
    refine iff_of_true (fun f hf => ?_) fun hst => ?_
    · rw [hnone] at hf
      cases hf
    · obtain ⟨-, -, hsome⟩ := hs.restorable.saved _ _ (hout.1 hst.movedOut)
      rw [hnone] at hsome
      cases hsome
  | some b =>
    obtain ⟨rfl, -, hsome⟩ := hs.restorable.saved _ b hmem
    obtain ⟨f, hf⟩ := Option.isSome_iff_exists.1 hsome
    have hstranded : Stranded env (· = new .bitcoinCli) w w' ↔
        ¬ (MovedIn env w w₁ .bitcoinCli ∧ f = new .bitcoinCli) := by
      constructor
      · exact fun hst h => hst.differs ⟨hin.2 h.1, f, hf, h.2⟩
      · refine fun h => ⟨hfailed, hout.2 hmem, ?_⟩
        rintro ⟨hmoved, f', hf', heq⟩
        obtain rfl : f = f' := Option.some.inj (hf.symm.trans hf')
        exact h ⟨hin.1 hmoved, heq⟩
    rw [hstranded, not_not]
    rcases hs.swapped.placed _ hkey with ⟨hmoved, hnew⟩ | ⟨hmoved, hnone⟩
    · constructor
      · intro h
        exact ⟨hmoved, Option.some.inj ((h f hf).symm.trans hnew)⟩
      · rintro ⟨-, heq⟩ f' hf'
        rw [hnew, ← heq, ← hf', ← hf]
    · refine iff_of_false (fun h => ?_) fun h => hmoved h.1
      have hlost := (h f hf).symm.trans hnone
      cases hlost

theorem othersKept_iff_of_rolledBack {new : Tool → FileState}
    {backups : List (Tool × Option Path)} {w₁ w' : World}
    (hs : SwapReport env (fun t => w.host.files t.destination) new backups w w₁)
    (hr : RolledBack env (fun t => w.host.files t.destination) backups w₁ w') :
    OthersKept env w w' ↔ ¬ Stranded env (· = new .bitcoinCli) w w' := by
  obtain ⟨w₂, w₃, h₁₂, h₂₃, hrest, h₃⟩ := hr
  have moves := moves_of_rolledBack hs.swapped h₁₂ h₂₃ h₃
  have hfiles : ∀ t : Tool, w'.host.files t.destination = w₃.host.files t.destination := fun t => by
    rw [h₃.files]
  cases hrest with
  | whole hall hnone =>
    refine iff_of_true (fun t f hf _ => ?_) fun hst => ?_
    · rw [hfiles, hall, hf]
    · exact hnone _ ((moves _).1.1 hst.failed)
  | cut front t b rest hsplit hfailed hback hleft =>
    have hkeys : backups.map Prod.fst = front.map Prod.fst ++ t :: rest.map Prod.fst := by
      simp [hsplit]
    have hown : ∀ t', ¬ RestoreFailed env w w' t' → t' ≠ t := fun t' h heq =>
      h ((moves t').1.2 ((hfailed t').2 heq))
    rcases entries_of_prefix hs.order hkeys with ⟨rfl, hfront, hnil | hlast⟩ | ⟨rfl, -, hnil⟩
    · -- the swap did not get as far as bitcoin-cli
      refine iff_of_true (fun t f hf hn => ?_) fun hst => ?_
      · rw [hfiles, hback t (hown t hn) (by simp [hnil]), hf]
      · have hmem := List.mem_map_of_mem (f := Prod.fst) ((moves _).2.1.1 hst.movedOut)
        simp [hkeys, hfront, hnil] at hmem
    · exact othersKept_iff_of_left hs (by simp [hkeys, hlast])
        ((moves _).1.2 ((hfailed _).2 rfl)) (moves _).2.1 (moves _).2.2
        (fun h => absurd ((hfailed _).1 ((moves _).1.1 h)) (by simp))
        (by rw [hfiles, hleft _ (by simp [hlast]), h₁₂.files])
    · -- bitcoind was restored before the loop ended
      refine iff_of_true (fun t f hf hn => ?_) fun hst => ?_
      · rw [hfiles, hback t (hown t hn) (by simp [hnil]), hf]
      · have heq := (hfailed _).1 ((moves _).1.1 hst.failed)
        cases heq

/-- The run so far keeps the binaries whose own restore steps did not raise, unless
`bitcoin-cli` is stranded. -/
structure Independent (env : Environment) (replacement : FileState → Prop) (w w' : World) :
    Prop where
  grows : w.history <:+ w'.history
  kept_iff : OthersKept env w w' ↔ ¬ Stranded env replacement w w'

/-- A stretch that unlinks and renames nothing and leaves the destinations alone. -/
structure Silent (w w' : World) : Prop where
  unmoved : Unmoved w w'
  binaries : ∀ t : Tool, w'.host.files t.destination = w.host.files t.destination

theorem Still.silent {w w' : World} (h : Still w w') : Silent w w' :=
  ⟨h.unmoved, fun _ => by rw [h.files]⟩

instance : Std.Refl Silent := ⟨fun w => ⟨refl_of Unmoved w, fun _ => rfl⟩⟩

instance : IsTrans World Silent := ⟨fun _ _ _ h h' =>
  ⟨trans_of Unmoved h.unmoved h'.unmoved, fun t => (h'.binaries t).trans (h.binaries t)⟩⟩

namespace Silent

variable {w₀ w' : World} {t : Tool}

theorem not_restoreFailed (h : Silent w w') : ¬ RestoreFailed env w w' t :=
  not_restoreFailed_of_asks h.unmoved (by simp [isMove]) (by simp [isMove])

theorem not_movedOut (h : Silent w w') : ¬ MovedOut env w w' t :=
  h.unmoved.not_answered (by simp [isMove])

theorem not_movedIn (h : Silent w w') : ¬ MovedIn env w w' t :=
  h.unmoved.not_answered (by simp [isMove])

theorem independent (h : Silent w w') {N : FileState → Prop} : Independent env N w w' :=
  ⟨h.unmoved.suffix, iff_of_true (fun t _ hf _ => (h.binaries t).trans hf)
    fun hst => h.not_movedOut hst.movedOut⟩

end Silent

/-- The moves and the binaries are all that the property is about. -/
theorem Independent.of_moves {N : FileState → Prop} {w₀ w₁ w' : World}
    (hi : Independent env N w w₁) (hgrows : w₀.history <:+ w'.history)
    (hstart : ∀ t : Tool, w.host.files t.destination = w₀.host.files t.destination)
    (hend : ∀ t : Tool, w'.host.files t.destination = w₁.host.files t.destination)
    (hfailed : ∀ t, RestoreFailed env w₀ w' t ↔ RestoreFailed env w w₁ t)
    (hout : ∀ t, MovedOut env w₀ w' t ↔ MovedOut env w w₁ t)
    (hin : ∀ t, MovedIn env w₀ w' t ↔ MovedIn env w w₁ t) : Independent env N w₀ w' := by
  have hkept : OthersKept env w₀ w' ↔ OthersKept env w w₁ := by
    simp only [OthersKept, hstart, hend, hfailed]
  have hstranded : Stranded env N w₀ w' ↔ Stranded env N w w₁ := by
    constructor
    · rintro ⟨h, h', hd⟩
      exact ⟨(hfailed _).1 h, (hout _).1 h', by rwa [hstart, ← hin]⟩
    · rintro ⟨h, h', hd⟩
      exact ⟨(hfailed _).2 h, (hout _).2 h', by rwa [hstart, ← hin] at hd⟩
  exact ⟨hgrows, hkept.trans (hi.kept_iff.trans hstranded.not.symm)⟩

theorem Independent.after {N : FileState → Prop} {w₀ w' : World} (hs : Silent w₀ w)
    (hi : Independent env N w w') : Independent env N w₀ w' := by
  have h₁ := hs.unmoved.suffix
  apply hi.of_moves (h₁.trans hi.grows) (fun t => hs.binaries t) (fun _ => rfl)
  · exact fun t => (restoreFailed_iff h₁ hi.grows t).trans (or_iff_right hs.not_restoreFailed)
  · exact fun t => (movedOut_iff h₁ hi.grows t).trans (or_iff_right hs.not_movedOut)
  · exact fun t => (movedIn_iff h₁ hi.grows t).trans (or_iff_right hs.not_movedIn)

theorem Independent.before {N : FileState → Prop} {w₁ w' : World}
    (hi : Independent env N w w₁) (hs : Silent w₁ w') : Independent env N w w' := by
  have h₂ := hs.unmoved.suffix
  apply hi.of_moves (hi.grows.trans h₂) (fun _ => rfl) (fun t => hs.binaries t)
  · exact fun t => (restoreFailed_iff hi.grows h₂ t).trans (or_iff_left hs.not_restoreFailed)
  · exact fun t => (movedOut_iff hi.grows h₂ t).trans (or_iff_left hs.not_movedOut)
  · exact fun t => (movedIn_iff hi.grows h₂ t).trans (or_iff_left hs.not_movedIn)

theorem Independent.congr {N N' : FileState → Prop} {w' : World} (hi : Independent env N w w')
    (hN : ∀ f, N f ↔ N' f) : Independent env N' w w' := by
  obtain rfl : N = N' := funext fun f => propext (hN f)
  exact hi

theorem swapAndStart_independent {new : Tool → FileState} (lib : Library) (version : Str) (wasRunning : Bool)
    (config : Config) (hstaged : ∀ t, w.host.files t.staged = some (new t)) :
    wp env (swapAndStart lib version wasRunning (nodeControl config)) (fun _ _ => True)
      (fun _ w' => Independent env (· = new .bitcoinCli) w w') w := by
  have start : Underway env (fun t => w.host.files t.destination) new Tool.all [] w w := by
    have hsame : Unmoved w w := refl_of Unmoved w
    have hout : ∀ t, ¬ MovedOut env w w t := fun t => hsame.not_answered (by simp [isMove])
    have hin : ∀ t, ¬ MovedIn env w w t := fun t => hsame.not_answered (by simp [isMove])
    refine ⟨⟨⟨by simp, fun _ _ => rfl, by simp, by simp⟩, by decide, by simp,
      fun t _ => ⟨by simp, hstaged t⟩⟩, ?_, rfl⟩
    exact ⟨refl_of (Asks IsSwapStep) w, fun t => iff_of_false (hout t) (by simp),
      fun t h => absurd h (hin t), by simp⟩
  have undone : ∀ (backups : List (Tool × Option Path)) (w₁ w' : World),
      SwapReport env (fun t => w.host.files t.destination) new backups w w₁ →
      RolledBack env (fun t => w.host.files t.destination) backups w₁ w' →
      Independent env (· = new .bitcoinCli) w w' := by
    intro backups w₁ w' hs hr
    obtain ⟨w₂, w₃, h₁₂, h₂₃, -, h₃⟩ := id hr
    refine ⟨?_, othersKept_iff_of_rolledBack hs hr⟩
    exact hs.swapped.asks.suffix.trans (h₁₂.unmoved.suffix.trans
      (h₂₃.suffix.trans h₃.unmoved.suffix))
  rw [swapAndStart, wp_bind]
  refine wp_mono (swapBinaries_report Tool.all [] start) (fun r w₁ hs => ?_) fun _ _ h => h.elim
  obtain ⟨backups, failed⟩ := r
  cases failed with
  | some exc =>
    simp only [wp_bind, wp_throw]
    exact wp_mono (rollback_report hs.restorable false wasRunning config exc)
      (fun _ w' h => undone backups w₁ w' hs h) fun _ w' h => undone backups w₁ w' hs h
  | none =>
    simp only [wp_tryCatch, wp_bind, wp_throw]
    have started : wp env (startReplacement lib version wasRunning (nodeControl config)) _ _ w₁ :=
      wp_and (unmoved_startReplacement lib version wasRunning config w₁)
        (startReplacement_spec lib version wasRunning config w₁)
    refine wp_mono started (fun _ _ _ => trivial) fun exc w₂ h₂ => ?_
    have hstill : Still w₁ w₂ := ⟨h₂.1, h₂.2.1⟩
    have back : ∀ w', RolledBack env (fun t => w.host.files t.destination) backups w₂ w' →
        Independent env (· = new .bitcoinCli) w w' := by
      rintro w' ⟨w₃, w₄, h₃, hrest⟩
      exact undone backups w₁ w' hs ⟨w₃, w₄, trans_of Still hstill h₃, hrest⟩
    exact wp_mono (rollback_report (hs.restorable.of_files_eq hstill.files) wasRunning wasRunning
      config exc) (fun _ w' h => back w' h) fun _ w' h => back w' h

theorem activate_independent {new : Tool → FileState} (lib : Library) (version : Str) (config : Config)
    (hstaged : ∀ t, w.host.files t.staged = some (new t)) :
    wp env (activate lib version (nodeControl config)) (fun _ _ => True)
      (fun _ w' => Independent env (· = new .bitcoinCli) w w') w := by
  have hstatus : Stays env Still (getStatus .node) := fun w =>
    wp_mono (wp_and (unmoved_getStatus .node w)
      ((respects_sameOutside fun _ => False).getStatus trivial w))
      (fun _ _ h => ⟨h.1, funext fun p => (h.2 p id).1⟩)
      fun _ _ h => ⟨h.1, funext fun p => (h.2 p id).1⟩
  have hstop : Stays env Still (stopForActivation (nodeControl config)) := fun w =>
    wp_mono (wp_and (unmoved_stopForActivation config w) (stopForActivation_spec config w))
      (fun _ _ h => ⟨h.1, h.2.1⟩) fun _ _ h => ⟨h.1, h.2.1⟩
  rw [activate, wp_bind]
  refine wp_mono (hstatus w) (fun wasRunning w₁ h₁ => ?_) fun _ _ h => h.silent.independent
  rw [wp_bind]
  have hrunIf : Stays env Still (runIf wasRunning (stopForActivation (nodeControl config))) :=
    .runIf fun _ => hstop
  refine wp_mono (hrunIf w₁) (fun _ w₂ h₁₂ => ?_) fun _ w' h => ?_
  · have h₂ : Still w w₂ := trans_of Still h₁ h₁₂
    have hstaged₂ : ∀ t, w₂.host.files t.staged = some (new t) := fun t => h₂.files ▸ hstaged t
    exact wp_mono (swapAndStart_independent lib version wasRunning config hstaged₂)
      (fun _ _ _ => trivial) fun _ w' h => h.after h₂.silent
  · exact (trans_of Still h₁ h).silent.independent

/-- What an archive stages for a tool. -/
def StagedFile (lib : Library) (archive : Bytes) (t : Tool) (f : FileState) : Prop :=
  ∃ members b, lib.tarMembers archive = some members ∧ memberContent members t = some b ∧
    f = ⟨b, 0o755⟩

theorem stageAndActivate_independent (lib : Library) (version filename : Str) (archive : Bytes)
    (config : Config) (w : World) :
    wp env (stageAndActivate lib version filename archive (nodeControl config)) (fun _ _ => True)
      (fun _ w' => Independent env (StagedFile lib archive .bitcoinCli) w w') w := by
  have hR := respects_preparing
  have silent : ∀ {β : Type} {m : Proc β}, Stays env Unmoved m → Stays env Preparing m →
      Stays env Silent m := fun hm hp w =>
    wp_mono (wp_and (hm w) (hp w)) (fun _ _ h => ⟨h.1, h.2.binaries⟩)
      fun _ _ h => ⟨h.1, h.2.binaries⟩
  have harchive : Stays env Silent (writeArchive filename archive) :=
    silent (unmoved_writeArchive _ _) (hR.writeArchive (fun n t => destination_ne_stage n t) _ _)
  have hextract : Stays env Silent (extractBinaries lib archive version) :=
    silent (unmoved_extractBinaries _ _ _)
      (hR.extractBinaries (fun n t => destination_ne_stage n t) _ _ _)
  have hvalidate : ∀ t, Stays env Silent (validateVersion lib t version) := fun t =>
    silent (unmoved_validateVersion _ _ _) (hR.validateVersion _ _ _)
  simp only [stageAndActivate, wp_bind]
  refine wp_mono (harchive w) (fun _ w₁ h₁ => ?_) fun _ _ h => h.independent
  refine wp_mono (wp_and (hextract w₁) (extractBinaries_spec lib archive version w₁))
    (fun _ w₂ h₂ => ?_) fun _ _ h => (trans_of Silent h₁ h.1).independent
  obtain ⟨h₁₂, members, hmembers, hstaged⟩ := h₂
  have h₂ : Silent w w₂ := trans_of Silent h₁ h₁₂
  choose content hcontent hfile using hstaged
  -- either version check leaves the host as it is
  have check : ∀ (t : Tool) (w₃ : World), Silent w w₃ → w₃.host = w₂.host →
      wp env (validateVersion lib t version) (fun _ w' => Silent w w' ∧ w'.host = w₂.host)
        (fun _ w' => Independent env (StagedFile lib archive .bitcoinCli) w w') w₃ := by
    intro t w₃ h₃ hhost
    refine wp_mono (wp_and (hvalidate t w₃) (validateVersion_spec lib version (hhost ▸ hfile t)))
      (fun _ w' h => ?_) fun _ w' h => ?_
    · exact ⟨trans_of Silent h₃ h.1, h.2.1.trans hhost⟩
    · exact (trans_of Silent h₃ h.1).independent
  refine wp_mono (check .bitcoind w₂ h₂ rfl) (fun _ w₃ h₃ => ?_) fun _ _ h => h
  refine wp_mono (check .bitcoinCli w₃ h₃.1 h₃.2) (fun _ w₄ h₄ => ?_) fun _ _ h => h
  have hfile₄ : ∀ t, w₄.host.files t.staged = some ⟨content t, 0o755⟩ := fun t => h₄.2 ▸ hfile t
  refine wp_mono (activate_independent lib version config hfile₄) (fun _ _ _ => trivial)
    fun _ w' h => (h.after h₄.1).congr fun f => ?_
  constructor
  · rintro rfl
    exact ⟨members, content .bitcoinCli, hmembers, hcontent .bitcoinCli, rfl⟩
  · rintro ⟨members', b, hmembers', hb, rfl⟩
    obtain rfl : members = members' := Option.some.inj (hmembers.symm.trans hmembers')
    rw [Option.some.inj (hb.symm.trans (hcontent .bitcoinCli))]

/-- What the release at the URL in force stages for a tool. -/
def ReleaseFile (lib : Library) (version binaryUrl : Str) (t : Tool) (f : FileState) : Prop :=
  ∃ urls, releaseUrls lib version binaryUrl = .ok urls ∧
    StagedFile lib (lib.web urls.1).content t f

/-- Around the body of the `with` block, for a run in which the directory is removed. -/
theorem wp_withStage_removed {m : Proc Unit} {w₀ : World} {N : FileState → Prop}
    (hs : Silent w₀ w) (hgrows : Stays env Grows m)
    (h : ∀ w₁ : World, wp env m (fun _ _ => True) (fun _ w' => Independent env N w₁ w') w₁) :
    wp env (withStage m) (fun _ _ => True) (fun _ w' =>
      ¬ Answered env (·.raises.isSome) w₀ w' .removeStage → Independent env N w₀ w') w := by
  have cleared : ∀ (o : Op) (w₁ : World), isMove o = false →
      Silent w₁ ⟨o :: w₁.history, w₁.host.clearStage⟩ := fun o w₁ ho =>
    ⟨.of_history_cons ho rfl, fun t => clearStage_destination _ t⟩
  -- a failure to remove the directory is excluded
  have removal : ∀ (w₁ : World) (Q : Unit → World → Prop) (E : Exc → World → Prop),
      w₀.history <:+ w₁.history → Q () ⟨.removeStage :: w₁.history, w₁.host.clearStage⟩ →
      (∀ e w', ¬ ¬ Answered env (·.raises.isSome) w₀ w' .removeStage → E e w') →
      wp env (perform .removeStage fun _ h => h.clearStage) Q E w₁ := by
    intro w₁ Q E hsuffix hQ hE
    refine wp_perform (fun m hm => hE _ _ fun hn => hn ?_) fun _ => hQ
    exact ⟨[], w₁.history, rfl, hsuffix, Option.isSome_of_eq_some hm⟩
  simp only [withStage, wp_bind, wp_tryCatch, wp_throw]
  refine wp_perform (fun m _ _ => ?_) fun _ => ?_
  · have hasked : Silent w ⟨.makeStage :: w.history, w.host⟩ :=
      ⟨.of_history_cons rfl rfl, fun _ => rfl⟩
    exact (trans_of Silent hs hasked).independent
  · have hmade := trans_of Silent hs (cleared .makeStage w rfl)
    refine wp_mono (wp_and (h _) (hgrows _)) (fun _ w₁ h₁ => ?_) fun e w₁ h₁ => ?_
    · obtain ⟨-, ops, hops⟩ := h₁
      refine removal w₁ _ _ ?_ trivial fun _ _ hn hn' => absurd hn' hn
      exact hmade.unmoved.suffix.trans ⟨ops, hops.symm⟩
    · have hi : Independent env N w₀ w₁ := h₁.1.after hmade
      refine removal w₁ _ _ hi.grows (fun _ => ?_) fun _ _ hn hn' => absurd hn' hn
      exact hi.before (cleared .removeStage w₁ rfl)

theorem installRelease_independent (lib : Library) (version binaryUrl : Str) (config : Config)
    (w : World) :
    wp env (installRelease lib version binaryUrl (nodeControl config)) (fun _ _ => True)
      (fun _ w' => ¬ Answered env (·.raises.isSome) w w' .removeStage →
        Independent env (ReleaseFile lib version binaryUrl .bitcoinCli) w w') w := by
  have hfetch : ∀ url, Stays env Silent (fetch lib url) := fun url w =>
    wp_mono (wp_and (unmoved_fetch lib url w) (fetch_spec lib url w))
      (fun _ _ h => ⟨h.1, h.2.2.binaries⟩) fun _ _ h => ⟨h.1, h.2.binaries⟩
  have hP : (⟨fun _ => True, fun _ => True, fun _ => True⟩ : Permit).Releases :=
    ⟨fun _ => trivial, fun _ => trivial, trivial, fun _ _ => trivial⟩
  have hgrows : ∀ filename archive, Stays env Grows
      (stageAndActivate lib version filename archive (nodeControl config)) := fun _ _ =>
    (respects_grows.writeArchive hP.stage _ _).bind fun _ =>
      (respects_grows.extractBinaries hP.stage lib _ _).bind fun _ =>
      (respects_grows.validateVersion lib _ _).bind fun _ =>
      (respects_grows.validateVersion lib _ _).bind fun _ => respects_grows.activate hP lib _ config
  rw [installRelease, wp_runIf]
  split
  · simp only [wp_bind]
    have hself : Silent w w := refl_of Silent w
    refine wp_raiseExcept (fun _ _ _ => hself.independent) fun urls hurls => ?_
    have hN : ∀ f, StagedFile lib (lib.web urls.1).content .bitcoinCli f ↔
        ReleaseFile lib version binaryUrl .bitcoinCli f := by
      intro f
      constructor
      · exact fun h => ⟨urls, hurls, h⟩
      · rintro ⟨urls', hurls', h⟩
        obtain rfl : urls = urls' := Except.ok.inj (hurls.symm.trans hurls')
        exact h
    refine wp_mono (wp_and (hfetch urls.1 w) (fetch_spec lib urls.1 w)) (fun release w₁ h₁ => ?_)
      fun _ _ h _ => h.1.independent
    obtain ⟨h₁, rfl, -⟩ := h₁
    refine wp_mono (hfetch urls.2 w₁) (fun sums w₂ h₁₂ => ?_)
      fun _ _ h _ => (trans_of Silent h₁ h).independent
    have h₂ : Silent w w₂ := trans_of Silent h₁ h₁₂
    refine wp_raiseExcept (fun _ _ _ => h₂.independent) fun expected _ => ?_
    rw [wp_runIf]
    split
    · exact fun _ => h₂.independent
    · have hdir : ∀ p, Silent w ⟨.mkdir p :: w₂.history, w₂.host⟩ := fun p => by
        have hasked : Silent w₂ ⟨.mkdir p :: w₂.history, w₂.host⟩ :=
          ⟨.of_history_cons rfl rfl, fun _ => rfl⟩
        exact trans_of Silent h₂ hasked
      refine wp_perform (fun _ _ _ => (hdir _).independent) fun _ => ?_
      refine wp_mono (wp_withStage_removed (hdir _) (hgrows _ _)
        (stageAndActivate_independent lib version _ _ config)) (fun _ _ h => h)
        fun _ w' h hn => (h hn).congr hN
  · trivial

/-- A failed install whose staging directory is gone keeps every binary whose own restore
steps did not raise, unless the loop of `_restore` ended at `bitcoind` and stranded the old
`bitcoin-cli`. -/
theorem installRelease_othersKept_iff (lib : Library) (version binaryUrl : Str) (config : Config)
    {e : Exc} {w w' : World}
    (hraised : installRelease lib version binaryUrl (nodeControl config) env w = .error e w')
    (hremoved : ¬ Answered env (·.raises.isSome) w w' .removeStage) :
    OthersKept env w w' ↔ ¬ Stranded env (ReleaseFile lib version binaryUrl .bitcoinCli) w w' :=
  (wp_of_error (installRelease_independent lib version binaryUrl config w) hraised
    hremoved).kept_iff

theorem not_answered_failing {ops : List Op} {o : Op} (ho : o ∉ ops) {w' : World} :
    ¬ Answered (failing ops) (·.raises.isSome) w w' o := by
  rintro ⟨later, hist, -, -, h⟩
  simp [failing, ho] at h

/-- A stopped node with both binaries of an earlier release. -/
def installedWorld : World where
  history := []
  host := { files := fun p => if p ∈ [.binary, .cli] then some ⟨[0], 0o755⟩ else none
            running := fun _ => false }

/-- The second binary cannot be moved in, and then the first one cannot be unlinked. -/
def lossyFaults : List Op :=
  [.replace (Tool.staged .bitcoinCli) (Tool.destination .bitcoinCli),
    .unlink (Tool.destination .bitcoind)]

/-- The old `bitcoin-cli` is gone with the staging directory. -/
theorem cli_lost : ¬ ∀ (env : Environment) (lib : Library) (version binaryUrl : Str)
    (config : Config) (e : Exc) (w w' : World),
    installRelease lib version binaryUrl (nodeControl config) env w = .error e w' →
    ¬ Answered env (·.raises.isSome) w w' .removeStage → OthersKept env w w' := by
  intro hall
  have hcheck : raisesIn (fun w' => w'.host.files (Tool.destination .bitcoinCli) = none)
      (installRelease mirror "28.0".toList [] (nodeControl fun _ => .none) (failing lossyFaults)
        installedWorld) = true := by
    decide +kernel
  obtain ⟨e, w', hrun, hnone⟩ := exists_of_raisesIn hcheck
  have hkept := hall _ _ _ _ _ e installedWorld w' hrun (not_answered_failing (by decide))
  have hown : ¬ RestoreFailed (failing lossyFaults) installedWorld w' .bitcoinCli := fun h =>
    h.elim (not_answered_failing (by decide)) (not_answered_failing (by decide))
  have hback := hkept .bitcoinCli ⟨[0], 0o755⟩ (by decide) hown
  rw [of_decide_eq_true hnone] at hback
  cases hback

/-- With the first of the two faults alone, both binaries are back. -/
theorem installRelease_othersKept_iff_oneFault : ∃ e w', installRelease mirror "28.0".toList []
      (nodeControl fun _ => .none) (failing (lossyFaults.take 1)) installedWorld = .error e w' ∧
    (∀ t : Tool, w'.host.files t.destination = some ⟨[0], 0o755⟩) ∧
    (OthersKept (failing (lossyFaults.take 1)) installedWorld w' ↔
      ¬ Stranded (failing (lossyFaults.take 1)) (ReleaseFile mirror "28.0".toList [] .bitcoinCli)
        installedWorld w') := by
  have hcheck : raisesIn (fun w' => Tool.all.all fun t =>
      w'.host.files t.destination = some ⟨[0], 0o755⟩)
      (installRelease mirror "28.0".toList [] (nodeControl fun _ => .none)
        (failing (lossyFaults.take 1)) installedWorld) = true := by
    decide +kernel
  obtain ⟨e, w', hrun, hall⟩ := exists_of_raisesIn hcheck
  refine ⟨e, w', hrun, fun t => ?_, ?_⟩
  · have ht := List.all_eq_true.1 hall t (by cases t <;> simp [Tool.all])
    exact of_decide_eq_true ht
  · exact installRelease_othersKept_iff mirror "28.0".toList [] (fun _ => .none) hrun
      (not_answered_failing (by decide))

end BitcoinRpcOperator.RestoreIndependence
