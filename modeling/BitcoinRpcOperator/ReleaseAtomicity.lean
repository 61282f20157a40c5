import BitcoinRpcOperator.HostFrames

/-!
# A release is installed whole or not at all

The staged members, the swap with its backup map and the restore each get one
specification; `activate` and `installRelease` are assembled from them. The map
filled so far always tells how to get the old binaries back (`Restorable`).
-/

namespace BitcoinRpcOperator.ReleaseAtomicity
open Text ServiceConfiguration FallibleProcedures HostSystem ReleaseInstaller ConfigTransaction
open HostSteps HostFrames

variable {env : Environment} {w : World}

/-- The bytes of the last regular `bin/<name>` member of a tool. -/
def memberContent : List TarMember → Tool → Option Bytes
  | [], _ => none
  | m :: ms, t => (memberContent ms t).or
      ((toolMember m).bind fun (t', content) => if t' = t then some content else none)

theorem staged_ne {t t' : Tool} (h : t ≠ t') : t.staged ≠ t'.staged := by
  revert h
  cases t <;> cases t' <;> decide

/-- Which tools have been staged, and with what, after a run of `extractMembers`. -/
structure Staged (ms : List TarMember) (found found' : List Tool) (w w' : World) (t : Tool) :
    Prop where
  found : t ∈ found' ↔ t ∈ found ∨ (memberContent ms t).isSome
  written : ∀ b, memberContent ms t = some b → w'.host.files t.staged = some ⟨b, 0o755⟩
  kept : memberContent ms t = none → w'.host.files t.staged = w.host.files t.staged

theorem extractMembers_spec (ms : List TarMember) (found : List Tool) (w : World) :
    wp env (extractMembers ms found) (fun found' w' => ∀ t, Staged ms found found' w w' t)
      (fun _ _ => True) w := by
  induction ms generalizing found w with
  | nil => exact fun t => ⟨by simp [memberContent], by simp [memberContent], fun _ => rfl⟩
  | cons m ms ih =>
    rw [extractMembers]
    cases hm : toolMember m with
    | none =>
      refine wp_mono (ih found w) (fun found' w' h t => ?_) fun _ _ _ => trivial
      have heq : memberContent (m :: ms) t = memberContent ms t := by simp [memberContent, hm]
      obtain ⟨hf, hw, hk⟩ := h t
      exact ⟨heq ▸ hf, heq ▸ hw, heq ▸ hk⟩
    | some tc =>
      obtain ⟨t₀, c⟩ := tc
      simp only [wp_bind]
      refine wp_writeFile (fun _ _ => trivial) (wp_chmod (fun _ _ => trivial) fun f hf => ?_)
      have hdata : f.data = c := by
        rw [setFile_files_self] at hf
        exact (Option.some.inj hf) ▸ rfl
      refine wp_mono (ih _ _) (fun found' w' h t => ?_) fun _ _ _ => trivial
      obtain ⟨hf', hw', hk'⟩ := h t
      by_cases ht : t₀ = t
      · subst ht
        have heq : memberContent (m :: ms) t₀ = (memberContent ms t₀).or (some c) := by
          simp [memberContent, hm]
        rw [setFile_files_self, hdata] at hk'
        refine ⟨?_, fun b hb => ?_, fun hn => ?_⟩
        · rw [heq, hf']
          cases memberContent ms t₀ <;> simp
        · rw [heq] at hb
          cases hms : memberContent ms t₀ with
          | none =>
            rw [hms] at hb
            rw [hk' hms, ← Option.some.inj hb]
          | some b' =>
            rw [hms] at hb
            rw [hw' b' hms, ← Option.some.inj hb]
        · rw [heq] at hn
          cases hms : memberContent ms t₀ <;> rw [hms] at hn <;> simp at hn
      · have heq : memberContent (m :: ms) t = memberContent ms t := by
          simp [memberContent, hm, ht]
        have hne : t.staged ≠ t₀.staged := staged_ne fun h => ht h.symm
        refine ⟨?_, heq ▸ hw', fun hn => ?_⟩
        · rw [heq, hf']
          simp [Ne.symm ht]
        · rw [hk' (heq ▸ hn), setFile_files_ne hne, setFile_files_ne hne]

theorem extractBinaries_spec (lib : Library) (archive : Bytes) (version : Str) (w : World) :
    wp env (extractBinaries lib archive version) (fun _ w' =>
      ∃ members, lib.tarMembers archive = some members ∧ ∀ t, ∃ b,
        memberContent members t = some b ∧ w'.host.files t.staged = some ⟨b, 0o755⟩)
      (fun _ _ => True) w := by
  rw [extractBinaries, wp_bind]
  refine wp_observe (fun _ _ => trivial) fun _ => ?_
  cases hms : lib.tarMembers archive with
  | none => trivial
  | some members =>
    simp only [wp_bind]
    refine wp_mono (extractMembers_spec members [] _) (fun found w' h => ?_) fun _ _ _ => trivial
    rw [wp_runIf]
    split
    · trivial
    · rename_i hmissing
      refine ⟨members, rfl, fun t => ?_⟩
      obtain ⟨hf, hw, -⟩ := h t
      have hmem : t ∈ found := by
        by_contra hn
        refine hmissing fun hnil => ?_
        have hall := List.filter_eq_nil_iff.1 hnil t (by cases t <;> simp)
        simp [hn] at hall
      obtain ⟨b, hb⟩ := Option.isSome_iff_exists.1 ((hf.1 hmem).resolve_left (by simp))
      exact ⟨b, hb, hw b hb⟩

/-- A binary whose version output reads as the expected version does. -/
def Reports (lib : Library) (version : Str) (content : Bytes) : Prop :=
  ∃ parts, versionParts lib (lib.versionOutput content) = .ok parts ∧
    versionParts lib version = .ok parts

theorem wp_raiseExcept {α : Type} {Q : α → World → Prop} {E : Exc → World → Prop}
    {x : Except Exc α} (hE : ∀ e, x = .error e → E e w) (hQ : ∀ a, x = .ok a → Q a w) :
    wp env (raiseExcept x) Q E w := by
  cases x with
  | error e => exact hE e rfl
  | ok a => exact hQ a rfl

theorem validateVersion_spec (lib : Library) (version : Str) {t : Tool} {f : FileState}
    (hf : w.host.files t.staged = some f) :
    wp env (validateVersion lib t version)
      (fun _ w' => w'.host = w.host ∧ Reports lib version f.data) (fun _ _ => True) w := by
  simp only [validateVersion, wp_bind]
  refine wp_observe (fun _ _ => trivial) fun _ => wp_fileAt (fun _ => trivial) fun f' hf' => ?_
  obtain rfl : f = f' := Option.some.inj (hf.symm.trans hf')
  refine wp_raiseExcept (fun _ _ => trivial) fun reported hr => ?_
  refine wp_raiseExcept (fun _ _ => trivial) fun expected he => ?_
  rw [wp_runIf]
  split
  · trivial
  · rename_i heq
    exact ⟨rfl, expected, not_ne_iff.1 heq ▸ hr, he⟩

theorem destination_ne {t t' : Tool} (h : t ≠ t') : t.destination ≠ t'.destination := by
  revert h
  cases t <;> cases t' <;> decide

theorem backup_ne {t t' : Tool} (h : t ≠ t') : t.backup ≠ t'.backup := by
  revert h
  cases t <;> cases t' <;> decide

theorem backup_ne_destination (t t' : Tool) : t.backup ≠ t'.destination := by
  cases t <;> cases t' <;> decide

theorem backup_ne_staged (t t' : Tool) : t.backup ≠ t'.staged := by
  cases t <;> cases t' <;> decide

theorem destination_ne_staged (t t' : Tool) : t.destination ≠ t'.staged := by
  cases t <;> cases t' <;> decide

/-- The map tells how to get the binaries `d` back. -/
structure Restorable (d : Tool → Option FileState) (backups : List (Tool × Option Path))
    (h : Host) : Prop where
  nodup : (backups.map Prod.fst).Nodup
  kept : ∀ t, t ∉ backups.map Prod.fst → h.files t.destination = d t
  absent : ∀ t, (t, none) ∈ backups → d t = none
  saved : ∀ t b, (t, some b) ∈ backups → b = t.backup ∧ h.files b = d t ∧ (d t).isSome

theorem Restorable.of_files_eq {d : Tool → Option FileState} {h h' : Host}
    {backups : List (Tool × Option Path)} (hr : Restorable d backups h)
    (hf : h'.files = h.files) : Restorable d backups h' := by
  obtain ⟨hnd, hk, ha, hs⟩ := hr
  exact ⟨hnd, hf ▸ hk, ha, hf ▸ hs⟩

theorem Restorable.ownBackups {d : Tool → Option FileState} {backups : List (Tool × Option Path)}
    {h : Host} (hr : Restorable d backups h) : OwnBackups backups := by
  rintro ⟨t, b⟩ he p rfl
  exact (hr.saved t p he).1

theorem restoreBinary_spec {d : Tool → Option FileState} {t : Tool} {b : Option Path}
    {backups : List (Tool × Option Path)} (hr : Restorable d ((t, b) :: backups) w.host) :
    wp env (restoreBinary t b) (fun _ w' => Restorable d backups w'.host) (fun _ _ => True) w := by
  obtain ⟨hnd, hkept, habsent, hsaved⟩ := hr
  have htn : t ∉ backups.map Prod.fst := (List.nodup_cons.1 hnd).1
  -- what is left to show once `t` is back and the other files are as before
  have done : ∀ h : Host, h.files t.destination = d t →
      (∀ p, p ≠ t.destination → p ≠ t.backup → h.files p = w.host.files p) →
      Restorable d backups h := by
    intro h ht hframe
    refine ⟨(List.nodup_cons.1 hnd).2, fun t' ht' => ?_, fun t' ht' => ?_, fun t' b' ht' => ?_⟩
    · by_cases heq : t' = t
      · rw [heq, ht]
      · rw [hframe _ (destination_ne heq) (backup_ne_destination t t').symm]
        exact hkept t' (by simp [heq, ht'])
    · exact habsent t' (List.mem_cons_of_mem _ ht')
    · have hne : t' ≠ t := fun heq => htn (heq ▸ List.mem_map_of_mem ht')
      obtain ⟨hb, hf, hd⟩ := hsaved t' b' (List.mem_cons_of_mem _ ht')
      refine ⟨hb, ?_, hd⟩
      rw [hframe b' (hb ▸ backup_ne_destination t' t) (hb ▸ backup_ne hne)]
      exact hf
  cases b with
  | none =>
    refine wp_unlink (fun _ => trivial) (done _ ?_ fun p hp _ => setFile_files_ne hp _ _ _)
    rw [setFile_files_self, habsent t (by simp)]
  | some b =>
    obtain ⟨rfl, hf, hd⟩ := hsaved t b (by simp)
    obtain ⟨f, hdf⟩ := Option.isSome_iff_exists.1 hd
    have hb : (w.host.setFile t.destination none (w.history.length + 1)).files t.backup =
        some f := by
      rw [setFile_files_ne (backup_ne_destination t t), hf, hdf]
    simp only [restoreBinary, wp_bind, wp_fileExists, wp_runIf]
    refine wp_unlink (fun _ => trivial) ?_
    simp only [hb, Option.isSome_some, ↓reduceIte]
    refine wp_replace (fun _ _ => trivial) fun f' hf' => done _ ?_ fun p hp hpb => ?_
    · obtain rfl : f = f' := Option.some.inj (hb.symm.trans hf')
      rw [setFile_files_ne (backup_ne_destination t t).symm, setFile_files_self, hdf]
    · rw [setFile_files_ne hpb, setFile_files_ne hp, setFile_files_ne hp]

theorem restore_spec {d : Tool → Option FileState} (backups : List (Tool × Option Path))
    (hr : Restorable d backups w.host) :
    wp env (restore backups) (fun _ w' => ∀ t, w'.host.files t.destination = d t)
      (fun _ _ => True) w := by
  induction backups generalizing w with
  | nil => exact fun t => hr.kept t (by simp)
  | cons e backups ih =>
    rw [restore, wp_bind]
    exact wp_mono (restoreBinary_spec hr) (fun _ w' hw' => ih hw') fun _ _ _ => trivial

theorem Restorable.moveAside {d : Tool → Option FileState} {t : Tool} {b : Option Path}
    {backups : List (Tool × Option Path)} {h h' : Host} (hr : Restorable d backups h)
    (ht : t ∉ backups.map Prod.fst) (hm : MovedAside t h b h') :
    Restorable d (backups ++ [(t, b)]) h' := by
  have hnd : ((backups ++ [(t, b)]).map Prod.fst).Nodup := by
    rw [List.map_append]
    exact hr.nodup.append (List.nodup_singleton t) (List.disjoint_singleton.2 ht)
  have hd : h.files t.destination = d t := hr.kept t ht
  cases hm with
  | absent hnone =>
    refine ⟨hnd, fun t' ht' => hr.kept t' (by simp_all), fun t' ht' => ?_, fun t' b' ht' => ?_⟩
    · rcases List.mem_append.1 ht' with ht' | ht'
      · exact hr.absent t' ht'
      · obtain ⟨rfl, -⟩ := Prod.mk.inj (List.mem_singleton.1 ht')
        rw [← hd, hnone]
    · exact hr.saved t' b' ((List.mem_append.1 ht').resolve_right (by simp))
  | present f n hsome =>
    refine ⟨hnd, fun t' ht' => ?_, fun t' ht' => ?_, fun t' b' ht' => ?_⟩
    · have hne : t' ≠ t := by
        rintro rfl
        exact ht' (by simp)
      rw [setFile_files_ne (destination_ne hne), setFile_files_ne (backup_ne_destination t t').symm]
      exact hr.kept t' (by simp_all)
    · exact hr.absent t' ((List.mem_append.1 ht').resolve_right (by simp))
    · rcases List.mem_append.1 ht' with ht' | ht'
      · have hne : t' ≠ t := fun heq => ht (heq ▸ List.mem_map_of_mem ht')
        obtain ⟨rfl, hf, hs⟩ := hr.saved t' b' ht'
        refine ⟨rfl, ?_, hs⟩
        rw [setFile_files_ne (backup_ne_destination t' t), setFile_files_ne (backup_ne hne), hf]
      · obtain ⟨rfl, hb⟩ := Prod.mk.inj (List.mem_singleton.1 ht')
        obtain rfl := Option.some.inj hb
        refine ⟨rfl, ?_, ?_⟩
        · rw [setFile_files_ne (backup_ne_destination t' t'), setFile_files_self, ← hd, hsome]
        · rw [← hd, hsome]
          rfl

theorem Restorable.moveIn {d : Tool → Option FileState} {t : Tool}
    {backups : List (Tool × Option Path)} {h : Host} (hr : Restorable d backups h)
    (ht : t ∈ backups.map Prod.fst) (f : Option FileState) (n : ℕ) :
    Restorable d backups ((h.setFile t.destination f n).setFile t.staged none n) := by
  refine ⟨hr.nodup, fun t' ht' => ?_, hr.absent, fun t' b ht' => ?_⟩
  · have hne : t' ≠ t := fun heq => ht' (heq ▸ ht)
    rw [setFile_files_ne (destination_ne_staged t' t), setFile_files_ne (destination_ne hne)]
    exact hr.kept t' ht'
  · obtain ⟨rfl, hf, hs⟩ := hr.saved t' b ht'
    refine ⟨rfl, ?_, hs⟩
    rw [setFile_files_ne (backup_ne_staged t' t), setFile_files_ne (backup_ne_destination t' t), hf]

/-- The swap under way: the tools of the map are in place, those of `ts` still staged. -/
structure Swapping (d : Tool → Option FileState) (new : Tool → FileState) (ts : List Tool)
    (backups : List (Tool × Option Path)) (h : Host) : Prop where
  restorable : Restorable d backups h
  nodup : ts.Nodup
  placed : ∀ t ∈ backups.map Prod.fst, h.files t.destination = some (new t)
  waiting : ∀ t ∈ ts, t ∉ backups.map Prod.fst ∧ h.files t.staged = some (new t)

theorem Swapping.step {d : Tool → Option FileState} {new : Tool → FileState} {t : Tool}
    {ts : List Tool} {backups : List (Tool × Option Path)} {b : Option Path} {h h' : Host}
    (hs : Swapping d new (t :: ts) backups h) (hm : MovedAside t h b h') (n : ℕ) :
    Swapping d new ts (backups ++ [(t, b)])
      ((h'.setFile t.destination (some (new t)) n).setFile t.staged none n) := by
  obtain ⟨ht, -⟩ := hs.waiting t (by simp)
  have hr := hs.restorable.moveAside ht hm
  refine ⟨hr.moveIn (by simp) _ _, (List.nodup_cons.1 hs.nodup).2, fun t' ht' => ?_,
    fun t' ht' => ⟨?_, ?_⟩⟩
  · rw [setFile_files_ne (destination_ne_staged t' t)]
    by_cases heq : t' = t
    · rw [heq, setFile_files_self]
    · rw [setFile_files_ne (destination_ne heq),
        hm.files_eq (destination_ne heq) (backup_ne_destination t t').symm]
      exact hs.placed t' (by simpa [heq] using ht')
  · have hne : t' ≠ t := fun heq => (List.nodup_cons.1 hs.nodup).1 (heq ▸ ht')
    simpa [hne] using (hs.waiting t' (List.mem_cons_of_mem _ ht')).1
  · have hne : t' ≠ t := fun heq => (List.nodup_cons.1 hs.nodup).1 (heq ▸ ht')
    rw [setFile_files_ne (staged_ne hne), setFile_files_ne (destination_ne_staged t t').symm,
      hm.files_eq (destination_ne_staged t t').symm (backup_ne_staged t t').symm]
    exact (hs.waiting t' (List.mem_cons_of_mem _ ht')).2

/-- However far the swap got, the map suffices to undo it; and if nothing raised, it is done. -/
theorem swapBinaries_spec {d : Tool → Option FileState} {new : Tool → FileState} (ts : List Tool)
    (backups : List (Tool × Option Path)) (hs : Swapping d new ts backups w.host) :
    wp env (swapBinaries ts backups) (fun r w' => Restorable d r.1 w'.host ∧
      (r.2 = none → Swapping d new [] r.1 w'.host ∧ ∀ t ∈ ts, t ∈ r.1.map Prod.fst) ∧
      ∀ t ∈ backups.map Prod.fst, t ∈ r.1.map Prod.fst) (fun _ _ => False) w := by
  induction ts generalizing backups w with
  | nil => exact ⟨hs.restorable, fun _ => ⟨hs, by simp⟩, fun _ h => h⟩
  | cons t ts ih =>
    obtain ⟨ht, hstaged⟩ := hs.waiting t (by simp)
    rw [swapBinaries, wp_bind]
    refine wp_swapBinary (fun e hist => ?_) (fun b h e hist hm => ?_) fun b h f n hist hm hf => ?_
    · exact ⟨hs.restorable, by simp, fun _ h => h⟩
    · exact ⟨hs.restorable.moveAside ht hm, by simp, fun t' ht' => by simp_all⟩
    · have hfile : h.files t.staged = some (new t) := by
        rw [hm.files_eq (destination_ne_staged t t).symm (backup_ne_staged t t).symm, hstaged]
      obtain rfl : new t = f := Option.some.inj (hfile.symm.trans hf)
      refine wp_mono (ih (w := ⟨hist, _⟩) _ (hs.step hm n)) (fun r w' h => ?_) fun _ _ h => h
      obtain ⟨hr, hdone, hkeep⟩ := h
      refine ⟨hr, fun hnone => ⟨(hdone hnone).1, fun t' ht' => ?_⟩, fun t' ht' => ?_⟩
      · rcases List.mem_cons.1 ht' with rfl | ht'
        · exact hkeep t' (by simp)
        · exact (hdone hnone).2 t' ht'
      · exact hkeep t' (by rw [List.map_append]; exact List.mem_append_left _ ht')

theorem stopForActivation_spec (config : Config) (w : World) :
    wp env (stopForActivation (nodeControl config))
      (fun _ w' => w'.host.files = w.host.files ∧
        w'.host.running = Function.update w.host.running .node false)
      (fun _ w' => w'.host.files = w.host.files ∧ (Clean isReleaseAttempt w' → w'.host.running .node = true)) w := by
  rw [stopForActivation, wp_tryCatch]
  refine wp_systemctl (fun m r _ => ?_) ⟨systemctl_files _ _ _ _, systemctl_running _ _ _ _⟩
  rw [wp_bind, wp_attempt]
  refine wp_systemctl (fun m' r' _ => ?_) ?_
  · refine ⟨rfl, fun hc => ?_⟩
    exact absurd (by simp [Host.noted, Exc.text])
      (hc.not_failed (l := .restartAfterStop) (m := m') rfl)
  · refine ⟨systemctl_files _ _ _ _, fun _ => ?_⟩
    rw [noted_running, systemctl_running]
    simp [commandedUnits]

/-- A clean rollback: the old binaries are back, and the node runs again if it did. -/
theorem rollback_spec {d : Tool → Option FileState} {backups : List (Tool × Option Path)}
    (hr : Restorable d backups w.host) {stopIt startIt : Bool} (hle : stopIt → startIt)
    (config : Config) (cause : Exc) :
    let restored := fun w' : World => Clean isReleaseAttempt w' → (∀ t, w'.host.files t.destination = d t) ∧
      w'.host.running .node = (startIt || w.host.running .node)
    wp env (rollback backups stopIt startIt (nodeControl config) cause)
      (fun _ => restored) (fun _ => restored) w := by
  intro restored
  have hR := respects_accounts fun _ => True
  have hstart : Stays env (Accounts fun _ => True) startService := hR.systemctl trivial _
  have hrestore : Stays env (Accounts fun _ => True) (restore backups) :=
    hR.restore (fun _ => trivial) backups fun _ _ _ _ => trivial
  have htail : ∀ op ∈ if startIt then [(Attempt.startPrevious, startService)] else [],
      Stays env (Accounts fun _ => True) op.2 := by
    intro op hop
    rw [List.mem_ite_nil_right, List.mem_singleton] at hop
    exact hop.2 ▸ hstart
  -- restoring, from a host that differs from the start in its units only
  have back : ∀ w₁ : World, w₁.host.files = w.host.files →
      (startIt = false → w₁.host.running = w.host.running) →
      wp env (attemptAll ([(.restoreBinaries, restore backups)] ++
        if startIt then [(.startPrevious, startService)] else []))
        (fun _ => restored) (fun _ => restored) w₁ := by
    intro w₁ hf₁ hrun₁
    have hr₁ : Restorable d backups w₁.host := hr.of_files_eq hf₁
    have quiet : Stays env Undisturbed (restore backups) :=
      respects_undisturbed.restore (fun _ => trivial) backups fun _ _ _ _ => trivial
    refine attemptAll_cons_clean rfl htail ?_
    refine wp_mono (wp_and (restore_spec backups hr₁) (quiet w₁)) (fun _ w₂ h₂ => ?_)
      fun _ _ _ => trivial
    obtain ⟨hd₂, hq₂⟩ := h₂
    cases startIt with
    | false => exact fun _ => ⟨hd₂, by simp [hq₂.running, hrun₁ rfl]⟩
    | true =>
      refine attemptAll_cons_clean rfl (by simp) (wp_systemctl (fun _ _ _ => trivial) fun _ => ?_)
      refine ⟨fun t => ?_, ?_⟩
      · rw [noted_files, systemctl_files]
        exact hd₂ t
      · rw [noted_running, systemctl_running]
        simp [commandedUnits]
  rw [rollback, wp_bind]
  refine wp_mono (Q := fun _ => restored) ?_ (fun errors w' h => ?_) fun _ _ h => h
  · cases stopIt with
    | false => exact back w rfl fun _ => rfl
    | true =>
      obtain rfl : startIt = true := hle rfl
      refine attemptAll_cons_clean rfl (fun op hop => ?_) (wp_systemctl (fun _ _ _ => trivial) ?_)
      · rcases List.mem_cons.1 hop with rfl | hop
        · exact hrestore
        · exact htail op hop
      · exact back _ (systemctl_files _ _ _ _) (by simp)
  · rw [wp_runIf]
    split <;> exact h

theorem startReplacement_spec (lib : Library) (version : Str) (wasRunning : Bool)
    (config : Config) (w : World) :
    wp env (startReplacement lib version wasRunning (nodeControl config))
      (fun _ w' => w'.host.files = w.host.files ∧ w'.host.running =
        if wasRunning then Function.update w.host.running .node true else w.host.running)
      (fun _ w' => w'.host.files = w.host.files ∧ wasRunning = true) w := by
  have frame : Stays env (SameOutside fun _ => False)
      (startReplacement lib version wasRunning (nodeControl config)) :=
    (respects_sameOutside fun _ => False).startReplacement trivial lib version wasRunning config
  have units : wp env (startReplacement lib version wasRunning (nodeControl config))
      (fun _ w' => w'.host.running =
        if wasRunning then Function.update w.host.running .node true else w.host.running)
      (fun _ _ => wasRunning = true) w := by
    rw [startReplacement, wp_runIf]
    split
    · rename_i hrun
      rw [wp_bind]
      refine wp_systemctl (fun _ _ _ => hrun) ?_
      refine wp_mono (respects_undisturbed.verifyRunningVersion lib version config _)
        (fun _ w' h => ?_) fun _ _ _ => hrun
      rw [h.running, systemctl_running]
      rfl
    · rfl
  refine wp_mono (wp_and (frame w) units) (fun _ w' h => ⟨?_, h.2⟩) fun _ w' h => ⟨?_, h.2⟩
  · exact funext fun p => (h.1 p id).1
  · exact funext fun p => (h.1 p id).1

/-- From a stopped node, or one that did not run. -/
theorem swapAndStart_spec {new : Tool → FileState} (lib : Library) (version : Str) (wasRunning : Bool)
    (config : Config) (hstaged : ∀ t, w.host.files t.staged = some (new t)) :
    wp env (swapAndStart lib version wasRunning (nodeControl config))
      (fun _ w' => (∀ t, w'.host.files t.destination = some (new t)) ∧ w'.host.running =
        if wasRunning then Function.update w.host.running .node true else w.host.running)
      (fun _ w' => Clean isReleaseAttempt w' →
        (∀ t : Tool, w'.host.files t.destination = w.host.files t.destination) ∧
        w'.host.running .node = (wasRunning || w.host.running .node)) w := by
  have start : Swapping (fun t => w.host.files t.destination) new Tool.all [] w.host :=
    ⟨⟨by simp, fun _ _ => rfl, by simp, by simp⟩, by decide, by simp,
      fun t _ => ⟨by simp, hstaged t⟩⟩
  have quiet : Stays env Undisturbed (swapBinaries Tool.all []) :=
    respects_undisturbed.swapBinaries (fun _ => trivial) (fun _ => trivial) _ _
  rw [swapAndStart, wp_bind]
  refine wp_mono (wp_and (swapBinaries_spec Tool.all [] start) (quiet w)) (fun r w₁ h => ?_)
    fun _ _ h => h.1.elim
  obtain ⟨⟨hr, hdone, -⟩, hq⟩ := h
  obtain ⟨backups, failed⟩ := r
  cases failed with
  | some exc =>
    simp only [wp_bind, wp_throw, ← hq.running]
    exact rollback_spec hr (by simp) config exc
  | none =>
    obtain ⟨hplaced, hall⟩ := hdone rfl
    have hnew : ∀ t, w₁.host.files t.destination = some (new t) := fun t =>
      hplaced.placed t (hall t (by cases t <;> simp [Tool.all]))
    simp only [wp_tryCatch, wp_bind, wp_throw]
    refine wp_mono (startReplacement_spec lib version wasRunning config w₁) (fun _ w₂ h₂ => ?_)
      fun exc w₂ h₂ => ?_
    · exact ⟨fun t => h₂.1 ▸ hnew t, hq.running ▸ h₂.2⟩
    · obtain ⟨hf₂, rfl⟩ := h₂
      exact rollback_spec (hr.of_files_eq hf₂) (by simp) config exc

/-- The destinations are as they were in `w`, and so is the node's unit if nothing but
the charm acts on units. -/
structure Unchanged (env : Environment) (w w' : World) : Prop where
  binaries : ∀ t : Tool, w'.host.files t.destination = w.host.files t.destination
  node : Steady env → w'.host.running .node = w.host.running .node

theorem activate_spec {new : Tool → FileState} (lib : Library) (version : Str)
    (config : Config) (hstaged : ∀ t, w.host.files t.staged = some (new t)) :
    wp env (activate lib version (nodeControl config))
      (fun _ w' => (∀ t, w'.host.files t.destination = some (new t)) ∧
        (Steady env → w'.host.running = w.host.running))
      (fun _ w' => Clean isReleaseAttempt w' → Unchanged env w w') w := by
  rw [activate, wp_bind]
  refine wp_getStatus (fun _ _ _ => ⟨fun _ => rfl, fun hs => by rw [hs]⟩) ?_
  generalize hseen : (env w.history (.status .node)).drift w.host.running = seen
  have hsteady : Steady env → seen = w.host.running := fun hs => by rw [← hseen, hs]
  rw [wp_bind, wp_runIf]
  cases hrun : seen .node with
  | false =>
    simp only [Bool.false_eq_true, ↓reduceIte]
    refine wp_mono (swapAndStart_spec lib version false config hstaged)
      (fun _ w' h => ⟨h.1, fun hs => h.2.trans (hsteady hs)⟩) fun _ w' h hc => ⟨(h hc).1, fun hs => ?_⟩
    rw [(h hc).2, ← hsteady hs, Bool.false_or]
  | true =>
    simp only [↓reduceIte]
    refine wp_mono (stopForActivation_spec config _) (fun _ w₁ h₁ => ?_) fun _ w' h hc => ?_
    · obtain ⟨hf₁, hrun₁⟩ := h₁
      have hstaged₁ : ∀ t, w₁.host.files t.staged = some (new t) := fun t => hf₁ ▸ hstaged t
      refine wp_mono (swapAndStart_spec lib version true config hstaged₁)
        (fun _ w' h => ⟨h.1, fun hs => ?_⟩) fun _ w' h hc => ⟨fun t => ?_, fun hs => ?_⟩
      · rw [h.2, hrun₁, ← hsteady hs]
        simp [← hrun]
      · rw [(h hc).1 t, hf₁]
      · rw [(h hc).2, ← hsteady hs, hrun, Bool.true_or]
    · exact ⟨fun t => by rw [h.1], fun hs => by rw [h.2 hc, ← hsteady hs, hrun]⟩

/-- Before the activation: the destinations and the units are untouched. -/
structure Preparing (w w' : World) : Prop where
  binaries : ∀ t : Tool, w'.host.files t.destination = w.host.files t.destination
  running : w'.host.running = w.host.running

theorem Preparing.unchanged {w w' : World} (h : Preparing w w') : Unchanged env w w' :=
  ⟨h.binaries, fun _ => by rw [h.running]⟩

theorem Unchanged.after {w₀ w w' : World} (h : Preparing w₀ w) (h' : Unchanged env w w') :
    Unchanged env w₀ w' :=
  ⟨fun t => (h'.binaries t).trans (h.binaries t), fun hs => by rw [h'.node hs, h.running]⟩

instance : Std.Refl Preparing := ⟨fun _ => ⟨fun _ => rfl, rfl⟩⟩

instance : IsTrans World Preparing :=
  ⟨fun _ _ _ h h' => ⟨fun t => (h'.binaries t).trans (h.binaries t), h'.running.trans h.running⟩⟩

@[simp] theorem clearStage_destination (h : Host) (t : Tool) :
    h.clearStage.files t.destination = h.files t.destination := by
  cases t <;> rfl

theorem respects_preparing :
    Respects Preparing ⟨fun p => ∀ t : Tool, t.destination ≠ p, fun _ => False, fun _ => False⟩ where
  asked := fun _ _ _ => ⟨fun _ => rfl, rfl⟩
  filed := fun _ _ _ hp => ⟨fun t => setFile_files_ne (hp t) _ _ _, rfl⟩
  cleared := fun _ _ => ⟨fun t => clearStage_destination _ t, rfl⟩
  polled := fun _ _ _ => ⟨fun _ => rfl, rfl⟩
  disturbed := fun _ => False.elim
  commanded := fun _ => False.elim
  noted := fun _ _ _ => False.elim

theorem destination_ne_stage (n : Str) (t : Tool) : t.destination ≠ .stage n := by
  cases t <;> simp [Tool.destination]

/-- Staged members that passed their checks, as bytes by tool. -/
structure Checked (lib : Library) (version : Str) (archive : Bytes) where
  members : List TarMember
  content : Tool → Bytes
  archived : lib.tarMembers archive = some members
  extracted : ∀ t, memberContent members t = some (content t)
  reports : ∀ t, Reports lib version (content t)

theorem stageAndActivate_spec (lib : Library) (version filename : Str)
    (archive : Bytes) (config : Config) (w : World) :
    wp env (stageAndActivate lib version filename archive (nodeControl config))
      (fun _ w' => (∃ r : Checked lib version archive, ∀ t : Tool,
        w'.host.files t.destination = some ⟨r.content t, 0o755⟩) ∧
        (Steady env → w'.host.running = w.host.running))
      (fun _ w' => Clean isReleaseAttempt w' → Unchanged env w w') w := by
  have hR := respects_preparing
  simp only [stageAndActivate, wp_bind]
  refine wp_mono (hR.writeArchive (fun n t => destination_ne_stage n t) filename archive w)
    (fun _ w₁ h₁ => ?_) fun _ w' h _ => h.unchanged
  refine wp_mono (wp_and (hR.extractBinaries (fun n t => destination_ne_stage n t) lib archive
    version w₁) (extractBinaries_spec lib archive version w₁)) (fun _ w₂ h₂ => ?_)
    fun _ w' h _ => (trans_of Preparing h₁ h.1).unchanged
  obtain ⟨h₁₂, members, harchive, hstaged⟩ := h₂
  have h₂ : Preparing w w₂ := trans_of Preparing h₁ h₁₂
  choose content hextracted hfile using hstaged
  -- either version check leaves the host as it is
  have check : ∀ (t : Tool) (w₃ : World), w₃.host = w₂.host →
      wp env (validateVersion lib t version)
        (fun _ w' => w'.host = w₂.host ∧ Reports lib version (content t))
        (fun _ w' => Clean isReleaseAttempt w' → Unchanged env w w') w₃ := by
    intro t w₃ h₃
    have h₂₃ : Preparing w₂ w₃ := ⟨fun t => by rw [h₃], by rw [h₃]⟩
    refine wp_mono (wp_and (validateVersion_spec lib version (h₃ ▸ hfile t))
      (hR.validateVersion lib t version w₃)) (fun _ w' h => ⟨h.1.1.trans h₃, h.1.2⟩)
      fun _ w' h _ => ?_
    exact (trans_of Preparing (trans_of Preparing h₂ h₂₃) h.2).unchanged
  refine wp_mono (check .bitcoind w₂ rfl) (fun _ w₃ h₃ => ?_) fun _ _ h => h
  refine wp_mono (check .bitcoinCli w₃ h₃.1) (fun _ w₄ h₄ => ?_) fun _ _ h => h
  have h₂₄ : Preparing w₂ w₄ := ⟨fun t => by rw [h₄.1], by rw [h₄.1]⟩
  have hfile₄ : ∀ t, w₄.host.files t.staged = some ⟨content t, 0o755⟩ := fun t => by
    rw [h₄.1]
    exact hfile t
  refine wp_mono (activate_spec lib version config hfile₄) (fun _ w' h => ⟨⟨?_, ?_⟩, ?_⟩)
    fun _ w' h hc => (h hc).after (trans_of Preparing h₂ h₂₄)
  · exact ⟨members, content, harchive, hextracted, fun t => by
      cases t with
      | bitcoind => exact h₃.2
      | bitcoinCli => exact h₄.2⟩
  · exact h.1
  · exact fun hs => by rw [h.2 hs, h₄.1, h₂.running]

/-- The staging directory could not be removed at some point. -/
def StageLost (env : Environment) : Prop := ∃ hist, (env hist .removeStage).raises.isSome

theorem wp_withStage {m : Proc Unit} {Q : Unit → World → Prop} {E : Exc → World → Prop}
    (hlost : StageLost env → ∀ e w', E e w') (hmake : ∀ e hist, E e ⟨hist, w.host⟩)
    (h : wp env m (fun a w' => Q a ⟨.removeStage :: w'.history, w'.host.clearStage⟩)
      (fun e w' => E e ⟨.removeStage :: w'.history, w'.host.clearStage⟩)
      ⟨.makeStage :: w.history, w.host.clearStage⟩) :
    wp env (withStage m) Q E w := by
  have remove : ∀ {Q' : Unit → World → Prop} (w' : World),
      Q' () ⟨.removeStage :: w'.history, w'.host.clearStage⟩ →
      wp env (perform .removeStage fun _ h => h.clearStage) Q' E w' := fun w' h' =>
    wp_perform (fun m hm => hlost ⟨w'.history, Option.isSome_of_eq_some hm⟩ _ _) fun _ => h'
  simp only [withStage, wp_bind, wp_tryCatch, wp_throw]
  refine wp_perform (fun m _ => hmake _ _) fun _ => ?_
  exact wp_mono h (fun _ w' h' => remove w' h') fun e w' h' => remove w' h'

/-- A release that passed every check between its URL and its staged binaries. -/
structure VerifiedRelease (lib : Library) (version binaryUrl : Str) where
  urls : Str × Str
  named : releaseUrls lib version binaryUrl = .ok urls
  listed : expectedChecksum (lib.web urls.2).text (lastSegment urls.1).2 =
    .ok (lib.sha256 (lib.web urls.1).content)
  checked : Checked lib version (lib.web urls.1).content

/-- Both destinations hold the release, executable. -/
def Installed {lib : Library} {version binaryUrl : Str} (r : VerifiedRelease lib version binaryUrl)
    (h : Host) : Prop :=
  ∀ t : Tool, h.files t.destination = some ⟨r.checked.content t, 0o755⟩

theorem fetch_spec (lib : Library) (url : Str) (w : World) :
    wp env (fetch lib url) (fun r w' => r = lib.web url ∧ Preparing w w')
      (fun _ w' => Preparing w w') w := by
  rw [fetch, wp_bind]
  refine wp_observe (fun _ _ => ⟨fun _ => rfl, rfl⟩) fun _ => ?_
  rw [wp_ite]
  split
  · exact ⟨rfl, fun _ => rfl, rfl⟩
  · exact ⟨fun _ => rfl, rfl⟩

theorem installRelease_spec (lib : Library) {version : Str} (hversion : version ≠ [])
    (binaryUrl : Str) (config : Config) (w : World) :
    wp env (installRelease lib version binaryUrl (nodeControl config))
      (fun _ w' => (∃ r : VerifiedRelease lib version binaryUrl, Installed r w'.host) ∧
        (Steady env → w'.host.running = w.host.running))
      (fun _ w' => ¬ StageLost env → Clean isReleaseAttempt w' → Unchanged env w w') w := by
  rw [installRelease, wp_runIf, if_pos (by simpa using hversion)]
  simp only [wp_bind]
  refine wp_raiseExcept (fun _ _ _ _ => ⟨fun _ => rfl, fun _ => rfl⟩) fun urls hurls => ?_
  refine wp_mono (fetch_spec lib urls.1 w) (fun release w₁ h₁ => ?_) fun _ _ h _ _ => h.unchanged
  obtain ⟨rfl, h₁⟩ := h₁
  refine wp_mono (fetch_spec lib urls.2 w₁) (fun sums w₂ h₂ => ?_)
    fun _ _ h _ _ => (trans_of Preparing h₁ h).unchanged
  obtain ⟨rfl, h₁₂⟩ := h₂
  have h₂ : Preparing w w₂ := trans_of Preparing h₁ h₁₂
  refine wp_raiseExcept (fun _ _ _ _ => h₂.unchanged) fun expected hexpected => ?_
  rw [wp_runIf]
  split
  · exact fun _ _ => h₂.unchanged
  rename_i hsum
  have hu₂ : ∀ hist, Unchanged env w ⟨hist, w₂.host⟩ := fun _ =>
    ⟨h₂.binaries, fun _ => congrFun h₂.running _⟩
  refine wp_perform (fun _ _ _ _ => hu₂ _) fun _ => ?_
  refine wp_withStage (fun hlost _ _ hn => absurd hlost hn) (fun _ hist _ _ => hu₂ hist) ?_
  refine wp_mono (stageAndActivate_spec lib version _ _ config _) (fun _ w' h => ?_)
    fun _ w' h _ hc => ?_
  · obtain ⟨⟨r, hr⟩, hrun⟩ := h
    refine ⟨⟨⟨urls, hurls, not_ne_iff.1 hsum ▸ hexpected, r⟩, fun t => ?_⟩, ?_⟩
    · exact (clearStage_destination _ t).trans (hr t)
    · exact fun hs => (hrun hs).trans h₂.running
  · have hu := h hc
    refine Unchanged.after h₂ ⟨fun t => ?_, hu.node⟩
    exact (clearStage_destination _ t).trans ((hu.binaries t).trans (clearStage_destination _ t))

/-- Until the node's status is asked for, no service is acted on. -/
def AsksFirst (w w' : World) : Prop :=
  ∃ ops, w'.history = ops ++ w.history ∧ ((∀ o ∈ ops, isQuiet o) ∨ Op.status .node ∈ ops)

instance : Std.Refl AsksFirst := ⟨fun _ => ⟨[], by simp⟩⟩

instance : IsTrans World AsksFirst := ⟨by
  rintro _ _ _ ⟨ops, h, hq⟩ ⟨ops', h', hq'⟩
  refine ⟨ops' ++ ops, by simp [h, h'], ?_⟩
  rcases hq with hq | hq
  · rcases hq' with hq' | hq'
    · exact .inl fun o ho => (List.mem_append.1 ho).elim (hq' o) (hq o)
    · exact .inr (List.mem_append_left _ hq')
  · exact .inr (List.mem_append_right _ hq)⟩

theorem respects_asksFirst : Respects AsksFirst ⟨fun _ => True, fun _ => False, fun _ => False⟩ where
  asked := fun _ o h => ⟨[o], rfl, .inl (by simpa using h)⟩
  filed := fun _ _ _ _ => ⟨[], rfl, .inl (by simp)⟩
  cleared := fun _ _ => ⟨[], rfl, .inl (by simp)⟩
  polled := fun _ _ _ => ⟨[], rfl, .inl (by simp)⟩
  disturbed := fun _ => False.elim
  commanded := fun _ => False.elim
  noted := fun _ _ _ => False.elim

theorem installRelease_asksFirst (lib : Library) (version binaryUrl : Str) (config : Config) :
    Stays env AsksFirst (installRelease lib version binaryUrl (nodeControl config)) := by
  refine respects_asksFirst.installRelease_of_activate (fun _ => trivial) lib binaryUrl fun w => ?_
  have hP : (⟨fun _ => True, fun _ => True, fun _ => True⟩ : Permit).Releases :=
    ⟨fun _ => trivial, fun _ => trivial, trivial, fun _ _ => trivial⟩
  have grown : ∀ w' : World, Grows ⟨.status .node :: w.history, w'.host⟩ w' → AsksFirst w w' := by
    rintro w' ⟨ops, h⟩
    exact ⟨ops ++ [.status .node], by simp [h], .inr (by simp)⟩
  rw [activate, wp_bind]
  refine wp_getStatus (fun _ _ => grown _ ⟨[], rfl⟩) ?_
  have rest : Stays env Grows (do
      runIf ((env w.history (.status .node)).drift w.host.running .node)
        (stopForActivation (nodeControl config))
      swapAndStart lib version ((env w.history (.status .node)).drift w.host.running .node)
        (nodeControl config)) :=
    (Stays.runIf fun _ => respects_grows.stopForActivation hP config).bind fun _ =>
      respects_grows.swapAndStart hP lib version _ config
  exact wp_mono (rest _) (fun _ w' h => grown w' h) fun _ w' h => grown w' h

/-- Either both binaries of a verified release are in place and the node runs iff it did;
or the call raised and, if every recovery step succeeded, binaries and node are as before.
As long as the node's status was not asked for, it was neither stopped nor started. -/
structure AllOrNothing (env : Environment) (lib : Library) (version binaryUrl : Str)
    (config : Config) (w : World) : Prop where
  returned : ∀ w', installRelease lib version binaryUrl (nodeControl config) env w = .ok () w' →
    (∃ r : VerifiedRelease lib version binaryUrl, Installed r w'.host) ∧
      (Steady env → w'.host.running .node = w.host.running .node)
  raised : ∀ e w', installRelease lib version binaryUrl (nodeControl config) env w = .error e w' →
    (Clean isReleaseAttempt w' → Unchanged env w w') ∧ ∃ ops, w'.history = ops ++ w.history ∧
      (Op.status .node ∉ ops → ∀ v s, Op.systemctl v s ∉ ops)

/-- `install_release` is all or nothing for a version that is set, and does nothing for
one that is not. -/
theorem installRelease_all_or_nothing (hstage : ¬ StageLost env) (lib : Library)
    (version binaryUrl : Str) (config : Config) (w : World) :
    (version = [] → installRelease lib version binaryUrl (nodeControl config) env w = .ok () w) ∧
    (version ≠ [] → AllOrNothing env lib version binaryUrl config w) := by
  refine ⟨fun hv => ?_, fun hv => ?_⟩
  · subst hv
    rfl
  · have hspec : wp env _ _ _ w := installRelease_spec lib hv binaryUrl config w
    have hasks : Stays env AsksFirst _ := installRelease_asksFirst lib version binaryUrl config
    refine ⟨fun w' hres => ?_, fun e w' hres => ⟨wp_of_error hspec hres hstage, ?_⟩⟩
    · obtain ⟨hinstalled, hrun⟩ := wp_of_ok hspec hres
      exact ⟨hinstalled, fun hs => by rw [hrun hs]⟩
    · obtain ⟨ops, hops, hq⟩ := wp_of_error (hasks w) hres
      refine ⟨ops, hops, fun hn v s hmem => ?_⟩
      have hquiet := hq.resolve_right hn _ hmem
      simp [isQuiet] at hquiet

/-- A host with neither binary, and every operation succeeding. -/
def freshWorld : World := ⟨[], { files := fun _ => none, running := fun _ => false }⟩

def calm : Environment := fun _ _ => {}

theorem calm_keeps_stage : ¬ StageLost calm := by
  rintro ⟨hist, h⟩
  exact absurd h (by simp [calm])

/-- A mirror whose archive is empty and listed with the digest of no bytes. -/
def emptyMirror : Library where
  sha256 _ := "e3b0c44298fc1c149afbf4c8996fb92427ae41e4649b934ca495991b7852b855".toList
  tarMembers _ := none
  web url := if pathName url = "SHA256SUMS".toList then
      ⟨true, [], ("e3b0c44298fc1c149afbf4c8996fb92427ae41e4649b934ca495991b7852b855  " ++
        "bitcoin-27.0-x86_64-linux-gnu.tar.gz").toList⟩
    else ⟨true, [], []⟩
  versionOutput _ := []
  netlocError _ := none
  printable _ := false
  template _ := []

/-- With an empty version the call returns and there is no release to speak of. -/
theorem installRelease_empty_version : ¬ ∀ (env : Environment) (lib : Library)
    (version binaryUrl : Str) (config : Config) (w : World), ¬ StageLost env →
    AllOrNothing env lib version binaryUrl config w := by
  intro h
  have hempty := h calm emptyMirror [] [] (fun _ => .none) freshWorld calm_keeps_stage
  obtain ⟨⟨r, hr⟩, -⟩ := hempty.returned freshWorld rfl
  exact absurd (hr .bitcoind) (by simp [freshWorld])

/-- Nothing fails but the operations listed, and a node that runs is of the release. -/
def failing (ops : List Op) : Environment := fun _ op =>
  { raises := if op ∈ ops then some "Input/output error".toList else none
    reply := .subversion "/Satoshi:28.0.0/".toList }

theorem failing_keeps_stage {ops : List Op} (h : Op.removeStage ∉ ops) :
    ¬ StageLost (failing ops) := by
  rintro ⟨hist, hraises⟩
  simp [failing, h] at hraises

/-- A mirror with a release whose two binaries report its version. -/
def mirror : Library where
  sha256 _ := List.replicate 64 '0'
  tarMembers _ := some [⟨"bitcoin-28.0/bin/bitcoind".toList, true, some [1]⟩,
    ⟨"bitcoin-28.0/bin/bitcoin-cli".toList, true, some [2]⟩]
  web url := if pathName url = "SHA256SUMS".toList then
      ⟨true, [], List.replicate 64 '0' ++ "  bitcoin-28.0-x86_64-linux-gnu.tar.gz".toList⟩
    else ⟨true, [], []⟩
  versionOutput _ := "v28.0".toList
  netlocError _ := none
  printable _ := false
  template _ := []

/-- A node that runs on both binaries of an earlier release. -/
def runningWorld : World where
  history := []
  host := { files := fun p => if p ∈ [.binary, .cli] then some ⟨[0], 0o755⟩ else none
            running := fun s => s = .node }

/-- `bitcoin-cli` cannot be moved in once `bitcoind` is. -/
def secondSwapFails : Environment :=
  failing [.replace (Tool.staged .bitcoinCli) (Tool.destination .bitcoinCli)]

theorem runningWorld_upgraded : ∃ w', installRelease mirror "28.0".toList []
    (nodeControl fun _ => .none) (failing []) runningWorld = .ok () w' := by
  have hrun : returnsNormally (installRelease mirror "28.0".toList [] (nodeControl fun _ => .none)
    (failing []) runningWorld) = true := by decide +kernel
  obtain ⟨⟨⟩, w', hok⟩ := exists_of_returnsNormally hrun
  exact ⟨w', hok⟩

theorem runningWorld_rolledBack : ∃ e w', installRelease mirror "28.0".toList []
      (nodeControl fun _ => .none) secondSwapFails runningWorld = .error e w' ∧
    Clean isReleaseAttempt w' := by
  have hrun : raisesIn (fun w' => w'.host.attempts.all fun a => a.2.isNone)
      (installRelease mirror "28.0".toList [] (nodeControl fun _ => .none) secondSwapFails
        runningWorld) = true := by decide +kernel
  obtain ⟨e, w', herror, hall⟩ := exists_of_raisesIn hrun
  exact ⟨e, w', herror, fun a ha _ => Option.isNone_iff_eq_none.1 (List.all_eq_true.1 hall a ha)⟩

/-- An upgrade of a running node that goes through, and one that is rolled back between
the two binaries. -/
theorem installRelease_all_or_nothing_mirror :
    (∃ w', installRelease mirror "28.0".toList [] (nodeControl fun _ => .none) (failing [])
        runningWorld = .ok () w' ∧
      ∃ r : VerifiedRelease mirror "28.0".toList [], Installed r w'.host) ∧
    ∃ e w', installRelease mirror "28.0".toList [] (nodeControl fun _ => .none)
        secondSwapFails runningWorld = .error e w' ∧
      Unchanged secondSwapFails runningWorld w' := by
  have kept : ∀ ops : List Op, Op.removeStage ∉ ops → AllOrNothing (failing ops) mirror
      "28.0".toList [] (fun _ => .none) runningWorld := fun ops h =>
    (installRelease_all_or_nothing (failing_keeps_stage h) mirror "28.0".toList []
      (fun _ => .none) runningWorld).2 (by decide)
  obtain ⟨w₁, hok⟩ := runningWorld_upgraded
  obtain ⟨e, w₂, herror, hclean⟩ := runningWorld_rolledBack
  exact ⟨⟨w₁, hok, ((kept _ (by simp)).returned w₁ hok).1⟩,
    e, w₂, herror, ((kept _ (by simp)).raised e w₂ herror).1 hclean⟩

end BitcoinRpcOperator.ReleaseAtomicity
