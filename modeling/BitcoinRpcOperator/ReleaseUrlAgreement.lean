import BitcoinRpcOperator.ReleaseVersions

/-!
# The release URL, parsed and as text

`_release_urls` checks a URL as `urlsplit` and `Path` see it; `install_release` takes the name
of the archive, and the place of its checksums, from the text. The views part where the
parser drops something behind the last slash, or the path does.
-/

namespace BitcoinRpcOperator.ReleaseUrlAgreement
open Text ServiceConfiguration Backtracking HostSystem ReleaseInstaller VersionPattern
open ReleaseVersions

theorem exists_last {c : Char} {s : Str} (h : c ∈ s) : ∃ a b, s = a ++ c :: b ∧ c ∉ b := by
  obtain ⟨b, a, heq, hb⟩ := List.eq_append_cons_of_mem (List.mem_reverse.2 h)
  refine ⟨a.reverse, b.reverse, ?_, by simpa using hb⟩
  have hreverse := congrArg List.reverse heq
  rw [List.reverse_reverse] at hreverse
  rw [hreverse]
  simp

theorem last_unique {c : Char} {a b a' b' : Str} (hb : c ∉ b) (hb' : c ∉ b')
    (h : a ++ c :: b = a' ++ c :: b') : a = a' ∧ b = b' := by
  rcases List.append_eq_append_iff.1 h with ⟨m, rfl, hm⟩ | ⟨m, rfl, hm⟩
  · cases m with
    | nil => exact ⟨(List.append_nil a).symm, (List.cons.inj hm).2⟩
    | cons d m =>
      rw [List.cons_append] at hm
      exact absurd ((List.cons.inj hm).2 ▸ by simp) hb
  · cases m with
    | nil => exact ⟨List.append_nil a', (List.cons.inj hm).2.symm⟩
    | cons d m =>
      rw [List.cons_append] at hm
      exact absurd ((List.cons.inj hm).2 ▸ by simp) hb'

theorem lastSegment_eq {a b : Str} (hb : '/' ∉ b) : lastSegment (a ++ '/' :: b) = (a, b) := by
  have hreverse : (a ++ '/' :: b).reverse = b.reverse ++ '/' :: a.reverse := by simp
  have hcut : cutAt (· == '/') (a ++ '/' :: b).reverse = (b.reverse, some a.reverse) := by
    rw [hreverse]
    apply cutAt_append _ (by rfl)
    intro c hc
    rw [beq_eq_false_iff_ne]
    rintro rfl
    exact hb (List.mem_reverse.1 hc)
  rw [lastSegment, rcutAt, hcut]
  simp

/-- The characters that `urlsplit` keeps. -/
def isKept (c : Char) : Bool := c != '\t' && c != '\r' && c != '\n'

/-- The text that `urlsplit` takes apart. -/
def cleaned (url : Str) : Str := (lstripBy isC0OrSpace url).filter isKept

theorem mem_of_mem_cleaned {url : Str} {c : Char} (h : c ∈ cleaned url) : c ∈ url :=
  (List.dropWhile_suffix _).subset (List.mem_filter.1 h).1

theorem mem_cleaned {url : Str} {c : Char} (h : c ∈ url) (hc : isC0OrSpace c = false) :
    c ∈ cleaned url := by
  have hkept : isKept c = true := by
    by_contra hnot
    have hcases : c = '\t' ∨ c = '\r' ∨ c = '\n' := by
      simp only [isKept, Bool.and_eq_true, bne_iff_ne, ne_eq, not_and, not_not] at hnot
      tauto
    rcases hcases with rfl | rfl | rfl <;> exact absurd hc (by decide)
  apply List.mem_filter.2
  refine ⟨?_, hkept⟩
  rw [← List.takeWhile_append_dropWhile (p := isC0OrSpace) (l := url)] at h
  rcases List.mem_append.1 h with h | h
  · have htaken := List.mem_takeWhile_imp h
    rw [hc] at htaken
    cases htaken
  · exact h

theorem cleaned_append {c : Char} (hc : isC0OrSpace c = false) (hkept : isKept c) (a b : Str) :
    cleaned (a ++ c :: b) = cleaned a ++ c :: b.filter isKept := by
  have hstrip : lstripBy isC0OrSpace (a ++ c :: b) = lstripBy isC0OrSpace a ++ c :: b := by
    unfold lstripBy
    rw [List.dropWhile_append]
    split
    · rename_i hnil
      rw [List.dropWhile_cons_of_neg (by simp [hc]), List.isEmpty_iff.1 hnil, List.nil_append]
    · rfl
  rw [cleaned, hstrip, List.filter_append, List.filter_cons, if_pos hkept]
  rfl

def isStop (c : Char) : Bool := c == '/' || c == '?' || c == '#'

def splitScheme (url : Str) : Str × Str :=
  match cutAt (· == ':') url with
  | (front, some rest) =>
    if front.head?.any Char.isAlpha && front.all isSchemeChar then (front.map Char.toLower, rest)
    else ([], url)
  | (_, none) => ([], url)

def splitAuthority (url : Str) : Str × Str :=
  if "//".toList.isPrefixOf url then
    ((url.drop 2).takeWhile (! isStop ·), (url.drop 2).dropWhile (! isStop ·))
  else ([], url)

/-- Path, query and fragment. -/
def splitTail (scheme netloc tail : Str) : SplitUrl :=
  let url := cutAt (· == '#') tail
  let path := cutAt (· == '?') url.1
  ⟨scheme, netloc, path.1, path.2.getD [], url.2.getD []⟩

/-- The authority that the parser takes. -/
def Permitted (lib : Library) (netloc : Str) : Prop :=
  (netloc.contains '[' != netloc.contains ']') = false ∧ lib.netlocError netloc = none

def checkAuthority (lib : Library) (netloc : Str) (parsed : SplitUrl) : Except Exc SplitUrl :=
  if netloc.contains '[' != netloc.contains ']' then .error (.valueError "Invalid IPv6 URL".toList)
  else match lib.netlocError netloc with
    | some message => .error (.valueError message)
    | none => .ok parsed

theorem urlsplit_eq_ok {lib : Library} {url : Str} {parsed : SplitUrl} :
    urlsplit lib url = .ok parsed ↔
      Permitted lib (splitAuthority (splitScheme (cleaned url)).2).1 ∧
        parsed = splitTail (splitScheme (cleaned url)).1
          (splitAuthority (splitScheme (cleaned url)).2).1
          (splitAuthority (splitScheme (cleaned url)).2).2 := by
  have hunfold : urlsplit lib url = checkAuthority lib
      (splitAuthority (splitScheme (cleaned url)).2).1 (splitTail (splitScheme (cleaned url)).1
        (splitAuthority (splitScheme (cleaned url)).2).1
        (splitAuthority (splitScheme (cleaned url)).2).2) := rfl
  rw [hunfold, checkAuthority, Permitted]
  generalize (splitAuthority (splitScheme (cleaned url)).2).1 = netloc
  split
  · rename_i hbrackets
    simp only [hbrackets, reduceCtorEq, Bool.true_eq_false, false_and]
  · rename_i hbrackets
    cases hmessage : lib.netlocError netloc with
    | some message => simp
    | none => simp only [hbrackets, Except.ok.injEq, and_self, true_and, eq_comm]

/-- A URL on a host, up to its first slash behind it. -/
structure OnHost (lib : Library) (url front netloc t : Str) : Prop where
  text : cleaned url = front ++ ':' :: '/' :: '/' :: (netloc ++ '/' :: t)
  alpha : (front.head?.any Char.isAlpha && front.all isSchemeChar) = true
  scheme : front.map Char.toLower = "https".toList
  authority : ∀ c ∈ netloc, isStop c = false
  permitted : Permitted lib netloc

theorem front_no_colon {front : Str} (h : front.all isSchemeChar) :
    ∀ c ∈ front, (c == ':') = false := by
  intro c hc
  have hscheme := List.all_eq_true.1 h c hc
  rw [beq_eq_false_iff_ne]
  rintro rfl
  exact absurd hscheme (by decide)

theorem urlsplit_onHost {lib : Library} {url front netloc t : Str}
    (h : OnHost lib url front netloc t) :
    urlsplit lib url = .ok (splitTail "https".toList netloc ('/' :: t)) := by
  have hscheme : splitScheme (cleaned url) =
      ("https".toList, '/' :: '/' :: (netloc ++ '/' :: t)) := by
    have hcolon := front_no_colon (Bool.and_eq_true_iff.1 h.alpha).2
    rw [splitScheme, h.text, cutAt_append hcolon (by rfl)]
    dsimp only
    rw [if_pos h.alpha, h.scheme]
  have hauthority : splitAuthority ('/' :: '/' :: (netloc ++ '/' :: t)) = (netloc, '/' :: t) := by
    have hstop : ∀ c ∈ netloc, (! isStop c) = true := by
      intro c hc
      rw [h.authority c hc]
      rfl
    have hnetloc : (netloc ++ '/' :: t).takeWhile (! isStop ·) = netloc := by
      rw [List.takeWhile_append_of_pos hstop, List.takeWhile_cons_of_neg (by decide),
        List.append_nil]
    have htail : (netloc ++ '/' :: t).dropWhile (! isStop ·) = '/' :: t := by
      rw [List.dropWhile_append_of_pos hstop, List.dropWhile_cons_of_neg (by decide)]
    rw [splitAuthority, if_pos (by rfl)]
    exact Prod.ext hnetloc htail
  rw [urlsplit_eq_ok, hscheme, hauthority]
  exact ⟨h.permitted, rfl⟩

/-- An `https` URL with a host and a path is of this form. -/
theorem onHost_of_urlsplit {lib : Library} {url : Str} {parsed : SplitUrl}
    (h : urlsplit lib url = .ok parsed) (hscheme : parsed.scheme = "https".toList)
    (hhost : parsed.hostname ≠ []) (hpath : parsed.path ≠ []) :
    ∃ front netloc t, OnHost lib url front netloc t := by
  obtain ⟨hpermitted, rfl⟩ := urlsplit_eq_ok.1 h
  have hnetloc : (splitAuthority (splitScheme (cleaned url)).2).1 ≠ [] := by
    intro hempty
    apply hhost
    rw [hempty]
    rfl
  have hslashes : "//".toList.isPrefixOf (splitScheme (cleaned url)).2 = true := by
    by_contra hnot
    rw [splitAuthority, if_neg hnot] at hnetloc
    exact hnetloc rfl
  have hscheme' : (splitScheme (cleaned url)).1 = "https".toList := hscheme
  -- the scheme is what stands before the first colon
  obtain ⟨front, rest, hcut, halpha⟩ : ∃ front rest,
      cutAt (· == ':') (cleaned url) = (front, some rest) ∧
        (front.head?.any Char.isAlpha && front.all isSchemeChar) = true := by
    unfold splitScheme at hscheme'
    split at hscheme'
    · rename_i front rest hcut
      split_ifs at hscheme' with halpha
      · exact ⟨front, rest, hcut, halpha⟩
      · cases hscheme'
    · cases hscheme'
  have hsplit : splitScheme (cleaned url) = (front.map Char.toLower, rest) := by
    rw [splitScheme, hcut]
    exact if_pos halpha
  rw [hsplit] at hpermitted hpath hslashes hscheme'
  obtain ⟨colon, hcolon, htext⟩ := eq_of_cutAt hcut
  obtain rfl : colon = ':' := by simpa using hcolon
  obtain ⟨rest, rfl⟩ : ∃ s, rest = '/' :: '/' :: s := by
    obtain ⟨s, rfl⟩ := List.isPrefixOf_iff_prefix.1 hslashes
    exact ⟨s, rfl⟩
  have hauthority : splitAuthority ('/' :: '/' :: rest) =
      (rest.takeWhile (! isStop ·), rest.dropWhile (! isStop ·)) := if_pos (by rfl)
  rw [hauthority] at hpermitted hpath
  -- without a path behind the authority there would be no path at all
  obtain ⟨t, htail⟩ : ∃ t, rest.dropWhile (! isStop ·) = '/' :: t := by
    cases htail : rest.dropWhile (! isStop ·) with
    | nil =>
      rw [htail] at hpath
      exact absurd rfl hpath
    | cons c t =>
      have hstop : isStop c = true := by
        have hne : rest.dropWhile (! isStop ·) ≠ [] := by simp [htail]
        simpa [htail] using List.head_dropWhile_not (! isStop ·) hne
      rw [htail] at hpath
      simp only [isStop, Bool.or_eq_true, beq_iff_eq] at hstop
      rcases hstop with (rfl | rfl) | rfl
      · exact ⟨t, rfl⟩
      · refine absurd ?_ hpath
        have hquery : (cutAt (· == '#') ('?' :: t)).1 = '?' :: t.takeWhile (! (· == '#') ·) := by
          rw [cutAt_fst]
          rfl
        simp only [splitTail, hquery, cutAt_fst]
        rfl
      · refine absurd ?_ hpath
        simp only [splitTail, cutAt_fst]
        rfl
  refine ⟨front, rest.takeWhile (! isStop ·), t, ?_, halpha, hscheme', ?_, hpermitted⟩
  · rw [htext, ← htail, List.takeWhile_append_dropWhile]
  · intro c hc
    simpa using List.mem_takeWhile_imp hc

theorem pathName_segment (directory : Str) {name : Str} (hne : name ≠ []) (hdot : name ≠ ['.'])
    (hslash : '/' ∉ name) : pathName (directory ++ '/' :: name) = name := by
  have hname : name.splitOnP (· == '/') = [name] := by
    apply List.splitOnP_eq_singleton
    intro c hc
    rw [beq_eq_false_iff_ne]
    rintro rfl
    exact hslash hc
  have hkept : (!name.isEmpty && name != ['.']) = true := by simp [hne, hdot]
  rw [pathName, pathParts, List.splitOnP_append_cons directory name (by rfl), hname,
    List.filter_append, List.filter_singleton, hkept]
  simp

/-- No mark of a query or a fragment before a text that has none, where both are empty. -/
theorem not_mem_of_rest_nil {c : Char} {a b : Str} (hne : b ≠ [])
    (h : (cutAt (· == c) (a ++ b)).2.getD [] = []) : c ∉ a := by
  intro hc
  obtain ⟨x, y, rfl, hx⟩ := List.eq_append_cons_of_mem hc
  have hfront : ∀ d ∈ x, (d == c) = false := by
    intro d hd
    rw [beq_eq_false_iff_ne]
    rintro rfl
    exact hx hd
  rw [List.append_assoc, List.cons_append, cutAt_append hfront (by simp)] at h
  exact hne (List.append_eq_nil_iff.1 h).2

theorem cutAt_of_not_mem {c : Char} {s : Str} (h : c ∉ s) : cutAt (· == c) s = (s, none) := by
  apply cutAt_none
  intro d hd
  rw [beq_eq_false_iff_ne]
  rintro rfl
  exact h hd

/-- The URL that is used: the configured one without the white space around it, or else the
default. -/
def requestedUrl (version binaryUrl : Str) : Str :=
  if (strip binaryUrl).isEmpty then replaceAll "VERSION".toList version dlUrl
  else strip binaryUrl

section
variable {lib : Library} {version binaryUrl url checksumUrl : Str}

theorem releaseUrls_spec (h : releaseUrls lib version binaryUrl = .ok (url, checksumUrl)) :
    url = requestedUrl version binaryUrl ∧
      checksumUrl = (lastSegment url).1 ++ "/SHA256SUMS".toList ∧
      (fullmatch releaseVersionPattern version).isSome ∧
      ∃ parsed, urlsplit lib url = .ok parsed ∧ parsed.scheme = "https".toList ∧
        parsed.hostname ≠ [] ∧ parsed.query = [] ∧ parsed.fragment = [] ∧
        pathName parsed.path = expectedFilename version := by
  unfold releaseUrls at h
  split_ifs at h with hversion
  dsimp only at h
  have hrequested : (if (strip binaryUrl).isEmpty = true then
      replaceAll "VERSION".toList version dlUrl else strip binaryUrl) =
        requestedUrl version binaryUrl := rfl
  rw [hrequested] at h
  split at h
  · cases h
  · rename_i parsed hparsed
    split_ifs at h with hbad
    simp only [Bool.or_eq_true, bne_iff_ne, ne_eq, not_or, not_not, List.isEmpty_iff,
      Bool.not_eq_true', Bool.not_eq_false] at hbad
    obtain ⟨hurl, hchecksum⟩ := Prod.mk.inj (Except.ok.inj h)
    obtain ⟨⟨⟨⟨⟨hscheme, hhost⟩, -⟩, hquery⟩, hfragment⟩, hname⟩ := hbad
    refine ⟨hurl.symm, ?_, ?_, parsed, ?_, hscheme, hhost, ?_, ?_, hname⟩
    · rw [← hchecksum, ← hurl]
    · simpa [Option.isSome_iff_ne_none] using hversion
    · rw [← hurl]
      exact hparsed
    · exact hquery
    · exact hfragment

/-- An accepted URL as it is written, cut at its last slash, and as it is parsed: the part
before that slash holds scheme, authority and directory. -/
structure Form (lib : Library) (version url front netloc directory before last : Str) :
    Prop where
  written : url = before ++ '/' :: last
  noSlash : '/' ∉ last
  parsed : cleaned before = front ++ ':' :: '/' :: '/' :: (netloc ++ directory)
  rooted : directory = [] ∨ ∃ d, directory = '/' :: d
  alpha : (front.head?.any Char.isAlpha && front.all isSchemeChar) = true
  scheme : front.map Char.toLower = "https".toList
  authority : ∀ c ∈ netloc, isStop c = false
  permitted : Permitted lib netloc
  query : (splitTail "https".toList netloc (directory ++ '/' :: last.filter isKept)).query = []
  fragment :
    (splitTail "https".toList netloc (directory ++ '/' :: last.filter isKept)).fragment = []
  name : pathName (splitTail "https".toList netloc
    (directory ++ '/' :: last.filter isKept)).path = expectedFilename version

variable {front netloc directory before last : Str}

/-- Whatever is put behind the last slash comes behind the directory. -/
theorem Form.urlsplit (h : Form lib version url front netloc directory before last) (x : Str) :
    urlsplit lib (before ++ '/' :: x) =
      .ok (splitTail "https".toList netloc (directory ++ '/' :: x.filter isKept)) := by
  obtain ⟨t, ht⟩ : ∃ t, directory ++ '/' :: x.filter isKept = '/' :: t := by
    rcases h.rooted with hnil | ⟨d, hd⟩
    · exact ⟨_, by rw [hnil, List.nil_append]⟩
    · exact ⟨_, by rw [hd, List.cons_append]⟩
  have honHost : OnHost lib (before ++ '/' :: x) front netloc t := by
    refine ⟨?_, h.alpha, h.scheme, h.authority, h.permitted⟩
    rw [cleaned_append (by decide) (by decide), h.parsed, ← ht]
    simp only [List.append_assoc, List.cons_append]
  rw [ht]
  exact urlsplit_onHost honHost

theorem expectedFilename_ne (version : Str) :
    expectedFilename version ≠ [] ∧ expectedFilename version ≠ ['.'] := by
  constructor
  · exact List.cons_ne_nil _ _
  · intro h
    have hfirst : ('b' : Char) = '.' := (List.cons.inj h).1
    exact absurd hfirst (by decide)

/-- The characters that the two views treat differently. -/
def isMark (c : Char) : Bool := c == '/' || c == '?' || c == '#' || ! isKept c

theorem expectedFilename_unmarked (hversion : (fullmatch releaseVersionPattern version).isSome) :
    ∀ c ∈ expectedFilename version, isMark c = false := by
  obtain ⟨parts, -, hparts, rfl⟩ := version_of_fullmatch hversion
  have hdigit : ∀ c, isDigit c = true → isMark c = false := by
    intro c hc
    by_contra hmark
    have hcases : c ∈ ['/', '?', '#', '\t', '\r', '\n'] := by
      simp only [isMark, isKept, Bool.not_eq_false, Bool.or_eq_true, beq_iff_eq, Bool.not_eq_true',
        Bool.and_eq_false_iff, bne_eq_false_iff_eq] at hmark
      simp only [List.mem_cons, List.not_mem_nil, or_false]
      tauto
    have hnone : ∀ c ∈ ['/', '?', '#', '\t', '\r', '\n'], isDigit c = false := by decide
    rw [hnone c hcases] at hc
    cases hc
  have hdotted : ∀ parts : List Str, (∀ p ∈ parts, IsComponent p) →
      ∀ c ∈ dotted parts, isMark c = false := by
    intro parts hparts c hc
    cases parts with
    | nil => cases hc
    | cons p parts =>
      rw [dotted_cons, List.mem_append] at hc
      rcases hc with hc | hc
      · exact hdigit c ((hparts p List.mem_cons_self).2 c hc)
      · obtain ⟨q, hq, hc⟩ := List.mem_flatMap.1 hc
        rcases List.mem_cons.1 hc with rfl | hc
        · decide
        · exact hdigit c ((hparts q (List.mem_cons_of_mem _ hq)).2 c hc)
  have hbefore : ∀ c ∈ "bitcoin-".toList, isMark c = false := by decide
  have hbehind : ∀ c ∈ "-x86_64-linux-gnu.tar.gz".toList, isMark c = false := by decide
  intro c hc
  rcases List.mem_append.1 hc with hc | hc
  · rcases List.mem_append.1 hc with hc | hc
    · exact hbefore c hc
    · exact hdotted parts hparts c hc
  · exact hbehind c hc

theorem form_of_releaseUrls (h : releaseUrls lib version binaryUrl = .ok (url, checksumUrl)) :
    ∃ front netloc directory before last,
      Form lib version url front netloc directory before last ∧
        checksumUrl = before ++ "/SHA256SUMS".toList := by
  obtain ⟨-, hchecksum, -, parsed, hparsed, hscheme, hhost, hquery, hfragment, hname⟩ :=
    releaseUrls_spec h
  have hpath : parsed.path ≠ [] := by
    intro hnil
    rw [hnil] at hname
    exact (expectedFilename_ne version).1 hname.symm
  obtain ⟨front, netloc, t, hform⟩ := onHost_of_urlsplit hparsed hscheme hhost hpath
  have hsame : parsed = splitTail "https".toList netloc ('/' :: t) :=
    Except.ok.inj (hparsed.symm.trans (urlsplit_onHost hform))
  have hslash : '/' ∈ cleaned url := by
    rw [hform.text]
    simp
  obtain ⟨before, last, rfl, hlast⟩ := exists_last (mem_of_mem_cleaned hslash)
  obtain ⟨directory, segment, ht, hsegment⟩ := exists_last (List.mem_cons_self (a := '/') (l := t))
  have hkept : '/' ∉ last.filter isKept := fun hmem => hlast (List.mem_filter.1 hmem).1
  have htext := hform.text
  rw [cleaned_append (by decide) (by decide), ht] at htext
  have hboth : cleaned before ++ '/' :: last.filter isKept =
      (front ++ ':' :: '/' :: '/' :: (netloc ++ directory)) ++ '/' :: segment := by
    rw [htext]
    simp only [List.append_assoc, List.cons_append]
  obtain ⟨hparsed', rfl⟩ := last_unique hkept hsegment hboth
  refine ⟨front, netloc, directory, before, last, ⟨rfl, hlast, hparsed', ?_, hform.alpha,
    hform.scheme, hform.authority, hform.permitted, ?_, ?_, ?_⟩, ?_⟩
  · cases directory with
    | nil => exact .inl rfl
    | cons c d =>
      right
      exact ⟨d, by rw [(List.cons.inj ht).1]⟩
  · rw [← ht, ← hsame]
    exact hquery
  · rw [← ht, ← hsame]
    exact hfragment
  · rw [← ht, ← hsame]
    exact hname
  · rw [hchecksum, lastSegment_eq hlast]

/-- The name taken from the text is the expected one, and the checksums are looked for on the
same host, in the same directory. -/
def Agrees (lib : Library) (version url checksumUrl : Str) : Prop :=
  (lastSegment url).2 = expectedFilename version ∧
    ∃ u v directory, ReleaseInstaller.urlsplit lib url = .ok u ∧
      ReleaseInstaller.urlsplit lib checksumUrl = .ok v ∧ v.scheme = u.scheme ∧
      v.netloc = u.netloc ∧ u.path = directory ++ '/' :: expectedFilename version ∧
      v.path = directory ++ "/SHA256SUMS".toList ∧ v.query = [] ∧ v.fragment = []

/-- The URL has no query and no fragment, not even an empty one, and behind its last slash
there is something, other than a dot, that the parser keeps as it is. -/
def PlainEnd (url : Str) : Prop :=
  '?' ∉ url ∧ '#' ∉ url ∧ (∀ c ∈ (lastSegment url).2, isKept c) ∧
    (lastSegment url).2 ≠ [] ∧ (lastSegment url).2 ≠ ['.']

instance (url : Str) : Decidable (PlainEnd url) := inferInstanceAs (Decidable (_ ∧ _))

theorem Form.lastSegment (h : Form lib version url front netloc directory before last) :
    lastSegment url = (before, last) := by
  rw [h.written, lastSegment_eq h.noSlash]

/-- A mark of a query or a fragment in the URL is in its directory or behind its last slash. -/
theorem Form.mem_of_mem (h : Form lib version url front netloc directory before last) {c : Char}
    (hc : c = '?' ∨ c = '#') (hmem : c ∈ url) : c ∈ directory ∨ c ∈ last := by
  have hcontrol : isC0OrSpace c = false := by rcases hc with rfl | rfl <;> decide
  have hslash : c ≠ '/' ∧ c ≠ ':' := by rcases hc with rfl | rfl <;> decide
  have hstop : isStop c = true := by rcases hc with rfl | rfl <;> decide
  have hscheme : isSchemeChar c = false := by rcases hc with rfl | rfl <;> decide
  rw [h.written, List.mem_append, List.mem_cons] at hmem
  rcases hmem with hmem | hmem | hmem
  · have hkept := mem_cleaned hmem hcontrol
    rw [h.parsed] at hkept
    simp only [List.mem_append, List.mem_cons, hslash.1, hslash.2, false_or] at hkept
    rcases hkept with hkept | hkept | hkept
    · have hchar := List.all_eq_true.1 (Bool.and_eq_true_iff.1 h.alpha).2 c hkept
      rw [hscheme] at hchar
      cases hchar
    · have hnot := h.authority c hkept
      rw [hstop] at hnot
      cases hnot
    · exact .inl hkept
  · exact absurd hmem hslash.1
  · exact .inr hmem

/-- Where the directory has no such mark, there is none to cut the path at. -/
theorem splitTail_of_not_mem (netloc : Str) {segment : Str} (hquery : '?' ∉ directory ++ '/' :: segment)
    (hfragment : '#' ∉ directory ++ '/' :: segment) :
    splitTail "https".toList netloc (directory ++ '/' :: segment) =
      ⟨"https".toList, netloc, directory ++ '/' :: segment, [], []⟩ := by
  rw [splitTail, cutAt_of_not_mem hfragment, cutAt_of_not_mem hquery]
  rfl

theorem Form.plainEnd (h : Form lib version url front netloc directory before last)
    (hunmarked : ∀ c ∈ last, isMark c = false) (hne : last ≠ []) (hdot : last ≠ ['.']) :
    PlainEnd url := by
  have hkept : ∀ c ∈ last, isKept c = true := by
    intro c hc
    have hmark := hunmarked c hc
    simp only [isMark, Bool.or_eq_false_iff, Bool.not_eq_false'] at hmark
    exact hmark.2
  have hfilter : last.filter isKept = last := List.filter_eq_self.2 hkept
  have hnot : ∀ c, isMark c = true → c ∉ last := by
    intro c hc hmem
    rw [hunmarked c hmem] at hc
    cases hc
  have hquery := h.query
  have hfragment := h.fragment
  rw [hfilter] at hquery hfragment
  have hdirectory : '#' ∉ directory := not_mem_of_rest_nil (List.cons_ne_nil '/' last) hfragment
  have htail : '#' ∉ directory ++ '/' :: last := by
    simp only [List.mem_append, List.mem_cons, not_or]
    exact ⟨hdirectory, by decide, hnot '#' (by decide)⟩
  have hdirectory' : '?' ∉ directory := by
    rw [splitTail, cutAt_of_not_mem htail] at hquery
    exact not_mem_of_rest_nil (List.cons_ne_nil '/' last) hquery
  refine ⟨?_, ?_, ?_, ?_, ?_⟩
  · intro hmem
    rcases h.mem_of_mem (.inl rfl) hmem with hmem | hmem
    · exact hdirectory' hmem
    · exact hnot '?' (by decide) hmem
  · intro hmem
    rcases h.mem_of_mem (.inr rfl) hmem with hmem | hmem
    · exact hdirectory hmem
    · exact hnot '#' (by decide) hmem
  · rw [h.lastSegment]
    exact hkept
  · rw [h.lastSegment]
    exact hne
  · rw [h.lastSegment]
    exact hdot

/-- A mark in the directory is one in the URL. -/
theorem Form.mem_directory (h : Form lib version url front netloc directory before last) {c : Char}
    (hc : c ∈ directory) : c ∈ url := by
  have hparsed : c ∈ cleaned before := by
    rw [h.parsed]
    simp [hc]
  rw [h.written]
  exact List.mem_append_left _ (mem_of_mem_cleaned hparsed)

theorem Form.agrees (h : Form lib version url front netloc directory before last)
    (hplain : PlainEnd url) :
    Agrees lib version url (before ++ "/SHA256SUMS".toList) := by
  obtain ⟨hquery, hfragment, hkept, hne, hdot⟩ := hplain
  rw [h.lastSegment] at hkept hne hdot
  have hfilter : last.filter isKept = last := List.filter_eq_self.2 hkept
  have hlast : ∀ c, c ∈ last → c ∈ url := by
    intro c hc
    rw [h.written]
    exact List.mem_append_right _ (List.mem_cons_of_mem _ hc)
  have hparts : ∀ c, c ∉ url → c ≠ '/' → ∀ x : Str, c ∉ x → c ∉ directory ++ '/' :: x := by
    intro c hc hslash x hx
    simp only [List.mem_append, List.mem_cons, not_or]
    exact ⟨fun hmem => hc (h.mem_directory hmem), hslash, hx⟩
  have hpath := splitTail_of_not_mem netloc
    (hparts '?' hquery (by decide) last fun hmem => hquery (hlast _ hmem))
    (hparts '#' hfragment (by decide) last fun hmem => hfragment (hlast _ hmem))
  have hchecksum := splitTail_of_not_mem netloc
    (hparts '?' hquery (by decide) "SHA256SUMS".toList (by decide))
    (hparts '#' hfragment (by decide) "SHA256SUMS".toList (by decide))
  have hname := h.name
  rw [hfilter, hpath] at hname
  rw [pathName_segment directory hne hdot h.noSlash] at hname
  have hurl := h.urlsplit last
  have hsums := h.urlsplit "SHA256SUMS".toList
  have hletters : "SHA256SUMS".toList.filter isKept = "SHA256SUMS".toList := by decide
  rw [hfilter, hpath, ← h.written] at hurl
  rw [hletters, hchecksum] at hsums
  refine ⟨?_, _, _, directory, hurl, hsums, rfl, rfl, ?_, rfl, rfl, rfl⟩
  · rw [h.lastSegment]
    exact hname
  · exact congrArg (fun name => directory ++ '/' :: name) hname

/-- The two views of an accepted URL agree exactly where it has a plain end. -/
theorem releaseUrls_agree_iff (h : releaseUrls lib version binaryUrl = .ok (url, checksumUrl)) :
    Agrees lib version url checksumUrl ↔ PlainEnd (requestedUrl version binaryUrl) := by
  obtain ⟨front, netloc, directory, before, last, hform, rfl⟩ := form_of_releaseUrls h
  obtain ⟨hrequested, -, hversion, -⟩ := releaseUrls_spec h
  rw [← hrequested]
  constructor
  · rintro ⟨hname, -⟩
    rw [hform.lastSegment] at hname
    obtain ⟨hne, hdot⟩ := expectedFilename_ne version
    have hlast : last = expectedFilename version := hname
    apply hform.plainEnd
    · rw [hlast]
      exact expectedFilename_unmarked hversion
    · rwa [hlast]
    · rwa [hlast]
  · exact hform.agrees

end

def slashedUrl : Str := "https://example.org/bitcoin-28.0-x86_64-linux-gnu.tar.gz/".toList

/-- The path ignores the slash, and the name taken from the text is empty. -/
theorem slashedUrl_disagrees : ¬ ∀ (lib : Library) (version binaryUrl url checksumUrl : Str),
    releaseUrls lib version binaryUrl = .ok (url, checksumUrl) →
      Agrees lib version url checksumUrl := by
  intro hall
  have hok : (releaseUrls candidateLib "28.0".toList slashedUrl).isOk = true := by decide +kernel
  obtain ⟨⟨url, checksumUrl⟩, hurls⟩ := exists_of_isOk hok
  have hname := (hall _ _ _ _ _ hurls).1
  rw [(releaseUrls_spec hurls).1] at hname
  revert hname
  decide +kernel

def mirrorUrl : Str :=
  "https://mirror.example.org:8443/bitcoin/28.0/bitcoin-28.0-x86_64-linux-gnu.tar.gz".toList

theorem releaseUrls_agree_mirror : ∃ url checksumUrl,
    releaseUrls candidateLib "28.0".toList mirrorUrl = .ok (url, checksumUrl) ∧
      Agrees candidateLib "28.0".toList url checksumUrl := by
  have hok : (releaseUrls candidateLib "28.0".toList mirrorUrl).isOk = true := by decide +kernel
  obtain ⟨⟨url, checksumUrl⟩, hurls⟩ := exists_of_isOk hok
  exact ⟨url, checksumUrl, hurls, (releaseUrls_agree_iff hurls).2 (by decide +kernel)⟩

end BitcoinRpcOperator.ReleaseUrlAgreement
