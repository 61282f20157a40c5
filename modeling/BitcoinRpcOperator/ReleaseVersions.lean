import BitcoinRpcOperator.ReleaseAtomicity
import BitcoinRpcOperator.VersionPattern

/-!
# Versions of releases

When the two checks of `bitcoin.py` take a text for the version that is configured.
-/

namespace BitcoinRpcOperator.ReleaseVersions
open Text Backtracking FallibleProcedures HostSystem HostSteps ReleaseInstaller ReleaseAtomicity
open VersionPattern

/-- The same numbers, up to zeros behind them. -/
def SameNumbers (a b : List ℕ) : Prop := ∀ i, a.getD i 0 = b.getD i 0

theorem getD_rdropWhile (a : List ℕ) : SameNumbers (a.rdropWhile (· == 0)) a := by
  induction a using List.reverseRecOn with
  | nil => exact fun i => rfl
  | append_singleton a n ih =>
    intro i
    by_cases hn : n = 0
    · rw [List.rdropWhile_concat_pos _ _ _ (by simpa using hn), ih i, hn]
      by_cases hi : i < a.length
      · simp [List.getD_eq_getElem?_getD, List.getElem?_append_left hi]
      · have hbeyond : a.getD i 0 = 0 := List.getD_eq_default _ _ (not_lt.1 hi)
        rw [hbeyond, List.getD_eq_getElem?_getD, List.getElem?_append_right (not_lt.1 hi)]
        cases i - a.length <;> rfl
    · rw [List.rdropWhile_concat_neg _ _ _ (by simpa using hn)]

theorem rdropWhile_eq_iff (a b : List ℕ) :
    a.rdropWhile (· == 0) = b.rdropWhile (· == 0) ↔ SameNumbers a b := by
  constructor
  · intro h i
    rw [← getD_rdropWhile a i, ← getD_rdropWhile b i, h]
  · intro h
    have hsame : SameNumbers (a.rdropWhile (· == 0)) (b.rdropWhile (· == 0)) := fun i => by
      rw [getD_rdropWhile a i, getD_rdropWhile b i, h i]
    -- without zeros at their ends, the longer one would have a number that the other lacks
    have hlonger : ∀ a b : List ℕ, SameNumbers (a.rdropWhile (· == 0)) (b.rdropWhile (· == 0)) →
        (b.rdropWhile (· == 0)).length ≤ (a.rdropWhile (· == 0)).length := by
      intro a b hsame
      by_contra hlt
      have hne : b.rdropWhile (· == 0) ≠ [] := by
        intro hnil
        rw [hnil] at hlt
        exact hlt (Nat.zero_le _)
      have hlast := List.rdropWhile_last_not (fun n : ℕ => n == 0) b hne
      have hvalue := hsame ((b.rdropWhile (· == 0)).length - 1)
      rw [List.getD_eq_default _ _ (by omega), List.getD_eq_getElem _ _ (by omega),
        ← List.getLast_eq_getElem hne] at hvalue
      simp [← hvalue] at hlast
    have hlength := le_antisymm (hlonger b a fun i => (hsame i).symm) (hlonger a b hsame)
    apply List.ext_getElem hlength
    intro i hi hi'
    have hvalue := hsame i
    rwa [List.getD_eq_getElem _ _ hi, List.getD_eq_getElem _ _ hi'] at hvalue

def numbers (parts : List Str) : List ℕ := parts.map decimal

/-- No component that `int` refuses. -/
def Short (parts : List Str) : Prop := ∀ p ∈ parts, p.length ≤ intMaxStrDigits

theorem splitOnP_dotted {parts : List Str} (hne : parts ≠ []) (h : ∀ p ∈ parts, IsComponent p) :
    (dotted parts).splitOnP (· == '.') = parts := by
  apply List.splitOn_intercalate '.' _ hne
  intro p hp hdot
  have hdigit := (h p hp).2 '.' hdot
  rw [dot_not_digit] at hdigit
  cases hdigit

theorem said_isComponent {w : Str} {parts : List Str} (h : said w = some parts) :
    2 ≤ parts.length ∧ ∀ p ∈ parts, IsComponent p := by
  unfold said at h
  split at h
  · rename_i hlength
    obtain rfl := Option.some.inj h
    exact ⟨hlength, frontParts_isComponent _⟩
  · cases h

/-- A text of words is read as the first version that one of them says. -/
theorem versionParts_eq_ok (lib : Library) {ws : List Str} (hne : ws ≠ []) (hws : ∀ w ∈ ws, IsWord w)
    (ns : List ℕ) : versionParts lib (unwords ws) = .ok ns ↔
      ∃ parts, ws.findSome? said = some parts ∧ Short parts ∧
        (numbers parts).rdropWhile (· == 0) = ns := by
  have hsearch := search_words hne hws
  unfold versionParts
  cases hfound : search versionPattern (unwords ws) with
  | none =>
    rw [hfound] at hsearch
    have hnone : ws.findSome? said = none := Option.map_eq_none_iff.1 hsearch.symm
    simp [hnone]
  | some m =>
    rw [hfound] at hsearch
    obtain ⟨parts, hparts, htext⟩ := Option.map_eq_some_iff.1 hsearch.symm
    obtain ⟨w, -, hsaid⟩ := List.exists_of_findSome?_eq_some hparts
    obtain ⟨hlength, hcomponents⟩ := said_isComponent hsaid
    have hsplit : (m.captured 1).splitOnP (· == '.') = parts := by
      have hcaptured : dotted parts = m.captured 1 := htext
      have hne : parts ≠ [] := by
        rintro rfl
        cases hlength
      rw [← hcaptured]
      exact splitOnP_dotted hne hcomponents
    simp only [hsplit, hparts, Option.some.injEq, exists_eq_left']
    by_cases hlong : parts.any (intMaxStrDigits < ·.length) = true
    · have hnot : ¬ Short parts := by
        obtain ⟨p, hp, hlength⟩ := List.any_eq_true.1 hlong
        intro hshort
        exact absurd (hshort p hp) (not_le.2 (of_decide_eq_true hlength))
      rw [if_pos hlong]
      simp [hnot]
    · have hshort : Short parts := by
        intro p hp
        by_contra hlength
        exact hlong (List.any_eq_true.2 ⟨p, hp, decide_eq_true (not_le.1 hlength)⟩)
      rw [if_neg hlong, Except.ok.injEq, numbers]
      exact (and_iff_right hshort).symm

/-- Two components or three, and nothing else. -/
theorem version_of_fullmatch {version : Str}
    (h : (fullmatch releaseVersionPattern version).isSome) :
    ∃ parts, 2 ≤ parts.length ∧ (∀ p ∈ parts, IsComponent p) ∧ version = dotted parts := by
  have hcomponent : ∀ {c d : Cursor}, Matches component c d →
      ∃ p, IsComponent p ∧ c.Moved ('.' :: p) d := by
    rintro c d ⟨m, hdot, hdigits⟩
    obtain ⟨x, hx, hmoved, -⟩ := matches_char hdot
    obtain ⟨p, hne, hp, hmoved', -⟩ := matches_plus_char hdigits
    obtain rfl : x = '.' := by simpa using hx
    exact ⟨p, ⟨hne, hp⟩, hmoved.trans hmoved'⟩
  obtain ⟨d, hd⟩ := Option.isSome_iff_exists.1 h
  obtain ⟨m, ⟨m₁, hfirst, m₂, hsecond, hlast⟩, hend⟩ := run_sound _ hd
  have hnil : m.rest = [] := by
    split_ifs at hend with hempty
    exact List.isEmpty_iff.1 hempty
  obtain ⟨p, hne, hp, hmoved, -⟩ := matches_plus_char hfirst
  obtain ⟨q, hq, hmoved'⟩ := hcomponent hsecond
  have hboth := hmoved.trans hmoved'
  rcases matches_opt.1 hlast with hlast | rfl
  · obtain ⟨r, hr, hmoved''⟩ := hcomponent hlast
    refine ⟨[p, q, r], by simp, ?_, ?_⟩
    · simpa using ⟨⟨hne, hp⟩, hq, hr⟩
    · have htext := (hboth.trans hmoved'').1
      rw [hnil, List.append_nil] at htext
      rw [dotted_cons]
      simpa [led] using htext
  · refine ⟨[p, q], by simp, ?_, ?_⟩
    · simpa using ⟨⟨hne, hp⟩, hq⟩
    · have htext := hboth.1
      rw [hnil, List.append_nil] at htext
      rw [dotted_cons]
      simpa [led] using htext

theorem frontParts_eq {parts : List Str} (h : ∀ p ∈ parts, IsComponent p) :
    frontParts (dotted parts) = parts := by
  have hfront := frontParts_dotted h ends_nil
  rwa [List.append_nil] at hfront

theorem dropV_dotted {parts : List Str} (h : ∀ p ∈ parts, IsComponent p) :
    dropV (dotted parts) = dotted parts := by
  unfold dropV
  split
  · rename_i s heq
    cases parts with
    | nil => cases heq
    | cons p parts =>
      have hp := h p List.mem_cons_self
      have hdigit := head?_component hp (led parts)
      rw [← dotted_cons, heq] at hdigit
      have hv : isDigit 'v' = true := hdigit
      exact absurd hv (by decide)
  · rfl

theorem isWord_dotted {parts : List Str} (hne : parts ≠ []) (h : ∀ p ∈ parts, IsComponent p) :
    IsWord (dotted parts) := by
  obtain ⟨p, parts, rfl⟩ := List.exists_cons_of_ne_nil hne
  have hchars : ∀ c ∈ dotted (p :: parts), isDigit c ∨ c = '.' := by
    intro c hc
    rw [dotted_cons, List.mem_append] at hc
    rcases hc with hc | hc
    · exact .inl ((h p List.mem_cons_self).2 c hc)
    · obtain ⟨q, hq, hc⟩ := List.mem_flatMap.1 hc
      rcases List.mem_cons.1 hc with rfl | hc
      · exact .inr rfl
      · exact .inl ((h q (List.mem_cons_of_mem _ hq)).2 c hc)
  constructor
  · rw [dotted_cons]
    simp [(h p List.mem_cons_self).1]
  · intro c hc
    by_contra hspace
    rcases hchars c hc with hdigit | rfl
    · exact space_not_digit (by simpa using hspace) hdigit
    · exact hspace (by decide)

/-- A configured version is read as its components. -/
theorem versionParts_dotted (lib : Library) {parts : List Str} (hlength : 2 ≤ parts.length)
    (h : ∀ p ∈ parts, IsComponent p) (ns : List ℕ) : versionParts lib (dotted parts) = .ok ns ↔
      Short parts ∧ (numbers parts).rdropWhile (· == 0) = ns := by
  have hne : parts ≠ [] := by
    rintro rfl
    cases hlength
  have hsaid : said (dotted parts) = some parts := by
    rw [said, dropV_dotted h, frontParts_eq h, if_pos hlength]
  have hwords : ∀ w ∈ [dotted parts], IsWord w := by
    intro w hw
    rw [List.mem_singleton.1 hw]
    exact isWord_dotted hne h
  have hread := versionParts_eq_ok lib (List.cons_ne_nil _ _) hwords ns
  rw [unwords_singleton] at hread
  rw [hread]
  simp [hsaid]

/-- `version` is accepted with some `binary-url`. -/
def Configured (lib : Library) (version : Str) : Prop :=
  ∃ binaryUrl urls, releaseUrls lib version binaryUrl = .ok urls

theorem Configured.fullmatch {lib : Library} {version : Str} (h : Configured lib version) :
    (Backtracking.fullmatch releaseVersionPattern version).isSome := by
  obtain ⟨binaryUrl, urls, hurls⟩ := h
  by_contra hnone
  rw [releaseUrls, if_pos (by simpa using hnone)] at hurls
  cases hurls

/-- A staged binary is asked for its version, and the node that runs for its own. -/
inductive Check where
  | staged (tool : Tool)
  | running

namespace Check

/-- What is read when the token of a version is shown. -/
def text : Check → Str → Str
  | .staged .bitcoind, t => "Bitcoin Core daemon version v".toList ++ t ++ " bitcoind".toList
  | .staged .bitcoinCli, t =>
    "Bitcoin Core RPC client version v".toList ++ t ++ " bitcoin-cli".toList
  | .running, t => t

/-- The words before the token. -/
def lead : Check → List Str
  | .staged .bitcoind => ["Bitcoin", "Core", "daemon", "version"].map String.toList
  | .staged .bitcoinCli => ["Bitcoin", "Core", "RPC", "client", "version"].map String.toList
  | .running => []

def word : Check → Str → Str
  | .staged _, t => 'v' :: t
  | .running, t => t

def trail : Check → List Str
  | .staged tool => [tool.name]
  | .running => []

def words (check : Check) (t : Str) : List Str := check.lead ++ check.word t :: check.trail

/-- What the check makes of the token before it reads a numeral. -/
def body : Check → Str → Str
  | .staged _, t => t
  | .running, t => dropV t

def procedure (lib : Library) (version t : Str) : Check → Proc Unit
  | .staged tool => validateVersion lib tool version
  | .running => verifyRunningVersion lib version (pure (some t))

/-- The staged binary can be run and prints the text. -/
def Shows (lib : Library) (env : Environment) (w : World) (check : Check) (t : Str) : Prop :=
  match check with
  | .staged tool => (env w.history (.execute tool.staged)).raises = none ∧
      ∃ f, w.host.files tool.staged = some f ∧ lib.versionOutput f.data = check.text t
  | .running => True

def Accepts (lib : Library) (env : Environment) (w : World) (version : Str) (check : Check)
    (t : Str) : Prop := ∃ w', check.procedure lib version t env w = .ok () w'

end Check

variable {lib : Library} {env : Environment} {w : World} {version t : Str} {check : Check}

theorem text_eq_unwords (check : Check) (t : Str) : check.text t = unwords (check.words t) := by
  have hjoin : ∀ (lead : List Str) (a b : Str), lead ≠ [] →
      unwords lead ++ [' ', 'v'] ++ a ++ ' ' :: b = unwords (lead ++ [('v' :: a), b]) := by
    intro lead a b hne
    rw [unwords_append hne (List.cons_ne_nil _ _), unwords_cons_cons, unwords_singleton]
    simp
  cases check with
  | staged tool =>
    cases tool with
    | bitcoind =>
      have hlead : "Bitcoin Core daemon version v".toList =
          unwords (Check.staged .bitcoind).lead ++ [' ', 'v'] := by decide
      calc (Check.staged .bitcoind).text t
          = "Bitcoin Core daemon version v".toList ++ t ++ ' ' :: Tool.bitcoind.name := rfl
        _ = unwords ((Check.staged .bitcoind).words t) := by
            rw [hlead]
            exact hjoin _ _ _ (by decide)
    | bitcoinCli =>
      have hlead : "Bitcoin Core RPC client version v".toList =
          unwords (Check.staged .bitcoinCli).lead ++ [' ', 'v'] := by decide
      calc (Check.staged .bitcoinCli).text t
          = "Bitcoin Core RPC client version v".toList ++ t ++ ' ' :: Tool.bitcoinCli.name := rfl
        _ = unwords ((Check.staged .bitcoinCli).words t) := by
            rw [hlead]
            exact hjoin _ _ _ (by decide)
  | running => exact (unwords_singleton t).symm

theorem returns_iff {m : Proc Unit} {p : Prop} (h : wp env m (fun _ _ => p) (fun _ _ => ¬ p) w) :
    (∃ w', m env w = .ok () w') ↔ p := by
  unfold wp at h
  cases hrun : m env w with
  | ok a w' =>
    rw [hrun] at h
    exact iff_of_true ⟨w', rfl⟩ h
  | error e w' =>
    rw [hrun] at h
    refine iff_of_false ?_ h
    rintro ⟨w', hw'⟩
    cases hw'

/-- Both texts are read as the same numbers. -/
def SameReading (lib : Library) (reported version : Str) : Prop :=
  ∃ ns, versionParts lib reported = .ok ns ∧ versionParts lib version = .ok ns

/-- The comparison at the end of either check. -/
theorem wp_compare {reported : Str} {exc : Exc} :
    wp env (do
      let found ← raiseExcept (versionParts lib reported)
      let expected ← raiseExcept (versionParts lib version)
      runIf (found ≠ expected) (throw exc)) (fun _ _ => SameReading lib reported version)
      (fun _ _ => ¬ SameReading lib reported version) w := by
  simp only [wp_bind]
  apply wp_raiseExcept
  · rintro e he ⟨ns, hfound, -⟩
    rw [he] at hfound
    cases hfound
  intro found hfound
  apply wp_raiseExcept
  · rintro e he ⟨ns, -, hexpected⟩
    rw [he] at hexpected
    cases hexpected
  intro expected hexpected
  rw [wp_runIf]
  split
  · rename_i hne
    rintro ⟨ns, hfound', hexpected'⟩
    rw [hfound] at hfound'
    rw [hexpected] at hexpected'
    exact hne ((Except.ok.inj hfound').trans (Except.ok.inj hexpected').symm)
  · rename_i heq
    exact ⟨found, hfound, by rw [hexpected, not_ne_iff.1 heq]⟩

theorem accepts_iff (hshows : check.Shows lib env w t) :
    check.Accepts lib env w version t ↔ SameReading lib (check.text t) version := by
  apply returns_iff
  cases check with
  | staged tool =>
    obtain ⟨hran, f, hf, htext⟩ := hshows
    rw [Check.procedure, validateVersion, wp_bind]
    apply wp_observe
    · intro m hm
      rw [hran] at hm
      cases hm
    intro _
    rw [wp_bind]
    apply wp_fileAt
    · intro hnone
      rw [show w.host.files tool.staged = none from hnone] at hf
      cases hf
    intro f' hf'
    obtain rfl : f = f' := Option.some.inj (hf.symm.trans hf')
    simp only [htext]
    exact wp_compare
  | running =>
    rw [Check.procedure, verifyRunningVersion, pure_bind]
    exact wp_compare

/-- The words that are read say what the token does. -/
theorem findSome?_words (check : Check) (t : Str) : (check.words t).findSome? said =
    if 2 ≤ (frontParts (check.body t)).length then some (frontParts (check.body t)) else none := by
  have hword : said (check.word t) = if 2 ≤ (frontParts (check.body t)).length then
      some (frontParts (check.body t)) else none := by
    cases check <;> rfl
  have hlead : check.lead.findSome? said = none := by
    rcases check with (_ | _) | _ <;> decide
  have htrail : check.trail.findSome? said = none := by
    rcases check with (_ | _) | _ <;> decide
  rw [Check.words, List.findSome?_append, hlead, Option.none_or, List.findSome?_cons, hword, htrail]
  split <;> rename_i heq <;> exact heq.symm

theorem words_isWord (check : Check) (ht : IsWord t) : ∀ word ∈ check.words t, IsWord word := by
  have hothers : ∀ word ∈ check.lead ++ check.trail, IsWord word := by
    unfold IsWord
    rcases check with (_ | _) | _ <;> decide
  have hword : IsWord (check.word t) := by
    cases check with
    | staged tool =>
      refine ⟨List.cons_ne_nil _ _, ?_⟩
      intro c hc
      rcases List.mem_cons.1 hc with rfl | hc
      · decide
      · exact ht.2 c hc
    | running => exact ht
  intro word hmem
  rcases List.mem_append.1 hmem with hmem | hmem
  · exact hothers word (List.mem_append_left _ hmem)
  rcases List.mem_cons.1 hmem with rfl | hmem
  · exact hword
  · exact hothers word (List.mem_append_right _ hmem)

/-- The token is a dotted numeral of the configured release, up to zeros at its end. -/
def IsRelease (version t : Str) : Prop :=
  ∃ parts configured, t = dotted parts ∧ version = dotted configured ∧ 2 ≤ parts.length ∧
    (∀ p ∈ parts, IsComponent p) ∧ (∀ p ∈ configured, IsComponent p) ∧
    SameNumbers (numbers parts) (numbers configured)

/-- The numeral that the token begins with is that of the configured release. -/
def FrontMatches (check : Check) (version t : Str) : Prop :=
  2 ≤ (frontParts (check.body t)).length ∧
    SameNumbers (numbers (frontParts (check.body t))) (numbers (frontParts version))

/-- The token is that numeral, with nothing before it and nothing behind. -/
def Whole (check : Check) (t : Str) : Prop := t = dotted (frontParts (check.body t))

/-- `int` takes every component of both. -/
def NoneTooLong (check : Check) (version t : Str) : Prop :=
  Short (frontParts (check.body t)) ∧ Short (frontParts version)

theorem body_dotted (check : Check) {parts : List Str} (h : ∀ p ∈ parts, IsComponent p) :
    check.body (dotted parts) = dotted parts := by
  cases check with
  | staged tool => rfl
  | running => exact dropV_dotted h

theorem isRelease_iff (check : Check) {configured : List Str}
    (hconfigured : ∀ p ∈ configured, IsComponent p) (t : Str) :
    IsRelease (dotted configured) t ↔
      FrontMatches check (dotted configured) t ∧ Whole check t := by
  constructor
  · rintro ⟨parts, vs, rfl, hversion, hlength, hparts, hvs, hsame⟩
    have hfront : frontParts (check.body (dotted parts)) = parts := by
      rw [body_dotted check hparts, frontParts_eq hparts]
    refine ⟨⟨by rwa [hfront], ?_⟩, ?_⟩
    · rwa [hfront, hversion, frontParts_eq hvs]
    · rw [Whole, hfront]
  · rintro ⟨⟨hlength, hsame⟩, hwhole⟩
    refine ⟨frontParts (check.body t), configured, hwhole, rfl, hlength, frontParts_isComponent _,
      hconfigured, ?_⟩
    rwa [frontParts_eq hconfigured] at hsame

theorem sameReading_iff (check : Check) (ht : IsWord t) {configured : List Str}
    (hlength : 2 ≤ configured.length) (hconfigured : ∀ p ∈ configured, IsComponent p) :
    SameReading lib (check.text t) (dotted configured) ↔
      FrontMatches check (dotted configured) t ∧ NoneTooLong check (dotted configured) t := by
  have hwords : check.words t ≠ [] := by simp [Check.words]
  have hread := versionParts_eq_ok lib hwords (words_isWord check ht)
  unfold SameReading FrontMatches NoneTooLong
  rw [text_eq_unwords, frontParts_eq hconfigured]
  simp only [hread, versionParts_dotted lib hlength hconfigured, findSome?_words]
  constructor
  · rintro ⟨ns, ⟨parts, hparts, hshort, hns⟩, hshort', hns'⟩
    split_ifs at hparts with htwo
    obtain rfl := Option.some.inj hparts
    exact ⟨⟨htwo, (rdropWhile_eq_iff _ _).1 (hns.trans hns'.symm)⟩, hshort, hshort'⟩
  · rintro ⟨⟨htwo, hsame⟩, hshort, hshort'⟩
    refine ⟨_, ⟨_, if_pos htwo, hshort, rfl⟩, hshort', ?_⟩
    exact ((rdropWhile_eq_iff _ _).2 hsame).symm

/-- A check accepts exactly the configured release where, of the tokens that begin with its
numeral, those are whole whose components `int` takes. -/
theorem check_exact_iff (hversion : Configured lib version) (ht : IsWord t)
    (hshows : check.Shows lib env w t) :
    (check.Accepts lib env w version t ↔ IsRelease version t) ↔
      (FrontMatches check version t → (Whole check t ↔ NoneTooLong check version t)) := by
  obtain ⟨configured, hlength, hconfigured, rfl⟩ := version_of_fullmatch hversion.fullmatch
  rw [accepts_iff hshows, sameReading_iff check ht hlength hconfigured,
    isRelease_iff check hconfigured]
  tauto

/-- Staged binaries that call themselves a candidate of 28.0. -/
def candidateLib : Library where
  sha256 _ := []
  tarMembers _ := none
  web _ := ⟨false, [], []⟩
  versionOutput _ := "Bitcoin Core daemon version v28.0rc1 bitcoind".toList
  netlocError _ := none
  printable _ := false
  template _ := []

/-- A host with something staged, and nothing that fails. -/
def stagedWorld : World := ⟨[], { files := fun _ => some ⟨[], 0o755⟩, running := fun _ => false }⟩

def quietEnvironment : Environment := fun _ _ => {}

theorem exists_of_isOk {α : Type} {x : Except Exc α} (h : x.isOk = true) : ∃ a, x = .ok a := by
  cases x with
  | ok a => exact ⟨a, rfl⟩
  | error e => cases h

theorem candidate_configured : Configured candidateLib "28.0".toList := by
  have hok : (releaseUrls candidateLib "28.0".toList []).isOk = true := by decide +kernel
  exact ⟨[], exists_of_isOk hok⟩

theorem components_of_version : ∀ p ∈ ["28".toList, ['0']], IsComponent p := by
  unfold IsComponent
  decide

/-- The candidate passes for the release. -/
theorem candidate_accepted : ¬ ∀ (lib : Library) (env : Environment) (w : World)
    (version t : Str) (check : Check), Configured lib version → IsWord t →
      check.Shows lib env w t → (check.Accepts lib env w version t ↔ IsRelease version t) := by
  intro hall
  have hword : IsWord "28.0rc1".toList := by
    unfold IsWord
    decide
  have hshows : (Check.staged .bitcoind).Shows candidateLib quietEnvironment stagedWorld
      "28.0rc1".toList := ⟨rfl, ⟨[], 0o755⟩, rfl, rfl⟩
  have hiff := hall candidateLib quietEnvironment stagedWorld "28.0".toList "28.0rc1".toList
    (.staged .bitcoind) candidate_configured hword hshows
  have haccepts : (Check.staged .bitcoind).Accepts candidateLib quietEnvironment stagedWorld
      "28.0".toList "28.0rc1".toList := (accepts_iff hshows).2 ⟨[28], rfl, rfl⟩
  have hrelease := hiff.1 haccepts
  have hwhole := ((isRelease_iff (.staged .bitcoind) components_of_version _).1 hrelease).2
  revert hwhole
  unfold Whole
  decide

/-- A third component of zero is the same release. -/
theorem check_exact_paddedVersion :
    Check.running.Accepts candidateLib quietEnvironment stagedWorld "28.0".toList
        "28.0.0".toList ↔ IsRelease "28.0".toList "28.0.0".toList := by
  have hword : IsWord "28.0.0".toList := by
    unfold IsWord
    decide
  have hshows : Check.running.Shows candidateLib quietEnvironment stagedWorld "28.0.0".toList :=
    trivial
  apply (check_exact_iff candidate_configured hword hshows).2
  intro _
  unfold Whole NoneTooLong Short
  decide

end BitcoinRpcOperator.ReleaseVersions
