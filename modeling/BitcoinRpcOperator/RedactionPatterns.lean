import BitcoinRpcOperator.PatternMatches
import BitcoinRpcOperator.RedactionScanning

/-!
# What the patterns of the redactor match

The pieces of a match of each of the seven patterns.
-/

namespace BitcoinRpcOperator.Redaction
open Text Backtracking PythonValues

variable {lib : Library} {c d : Cursor}

/-- Where an unquoted value ends, other than at whitespace. -/
def isStop (x : Char) : Bool := ",;\x7d&#".toList.contains x

def isSep (x : Char) : Bool := x == ':' || x == '='

/-- A text in which the case does not count. -/
def Spells (word : String) (s : Str) : Prop := List.Forall₂ (fun c x => letter c x = true) word.toList s

instance (word : String) : DecidablePred (Spells word) := fun s =>
  inferInstanceAs (Decidable (List.Forall₂ (fun c x => letter c x = true) word.toList s))

theorem matches_word {w : String} (h : Matches (word w) c d) :
    ∃ s, Spells w s ∧ c.Moved s d ∧ d.groups = c.groups := by
  unfold word at h
  unfold Spells
  generalize w.toList = cs at h ⊢
  induction cs generalizing c with
  | nil => exact ⟨[], .nil, by obtain rfl := h; exact ⟨.refl _, rfl⟩⟩
  | cons x cs ih =>
    obtain ⟨m, hm, hrest⟩ := h
    obtain ⟨y, hy, hmoved, hgroups⟩ := matches_char hm
    obtain ⟨s, hs, hmoved', hgroups'⟩ := ih hrest
    exact ⟨y :: s, .cons hy hs, hmoved.trans hmoved', hgroups'.trans hgroups⟩

/-- A word is matched where it stands. -/
theorem matches_word_run {w : String} {s : Str} (h : Spells w s) (passed rest : Str) (gs : List (ℕ × Str)) :
    Matches (word w) ⟨passed, s ++ rest, gs⟩ ⟨s.reverse ++ passed, rest, gs⟩ := by
  unfold Spells at h
  unfold word
  generalize w.toList = cs at h ⊢
  induction h generalizing passed with
  | nil => exact rfl
  | @cons c x cs s hx _ ih =>
    rw [List.reverse_cons, List.append_assoc]
    exact ⟨⟨x :: passed, s ++ rest, gs⟩, ⟨x, s ++ rest, rfl, hx, rfl⟩, ih (x :: passed)⟩

/-- A match of the URL pattern: a scheme, and user information up to an `@`. -/
theorem urlPattern_match (h : matchAt (urlPattern lib) c = some d) :
    ∃ scheme info, scheme ≠ [] ∧ (∀ x ∈ scheme, isSchemeChar x) ∧
      (∀ x ∈ info, isSpace x = false) ∧
      c.Moved (scheme ++ "://".toList ++ info ++ ['@']) d ∧
      d.captured 1 = scheme ++ "://".toList := by
  obtain ⟨m₁, ⟨m₀, hscheme, rfl⟩, m₂, hinfo, m₃, hat, rfl⟩ := matchAt_sound h
  obtain ⟨n₁, ⟨-, rfl⟩, n₂, hletter, n₃, hstar, n₄, htext, rfl⟩ := hscheme
  obtain ⟨x, hx, hmoved₁, -⟩ := matches_char hletter
  obtain ⟨a, ha, hmoved₂, -⟩ := matches_star_char hstar
  obtain ⟨hmoved₃, -⟩ := matches_text htext
  obtain ⟨info, -, hi, hmoved₄, hgroups₄⟩ := matches_plus_char hinfo
  obtain ⟨hmoved₅, hgroups₅⟩ := matches_lit hat
  have hfront := (hmoved₁.trans hmoved₂).trans hmoved₃
  refine ⟨x :: a, info, List.cons_ne_nil _ _, ?_, ?_, ?_, ?_⟩
  · intro y hy
    rcases List.mem_cons.1 hy with rfl | hy
    · simp [isSchemeChar, hx]
    · exact ha y hy
  · intro y hy
    have := hi y hy
    simp only [Bool.and_eq_true, Bool.not_eq_true'] at this
    exact this.1.1
  · exact (Cursor.Moved.trans (m := ⟨_, _, _⟩) hfront hmoved₄).trans hmoved₅
  · rw [Cursor.captured, hgroups₅, hgroups₄, hfront.textTo]
    rfl

def isValueChar (x : Char) : Bool := !isSpace x && !isStop x

theorem run_quote_none {m : Cursor} (hquote : m.rest.head?.any isQuote = false) {q : Char}
    (hq : isQuote q) {rs : List Pattern} {k : Continuation} :
    run (.seqs (.lit q :: rs)) k m = none := by
  obtain ⟨passed, s, gs⟩ := m
  cases s with
  | nil => rfl
  | cons x s =>
    have hne : (x == q) = false := by
      rw [beq_eq_false_iff_ne]
      rintro rfl
      simp [hq] at hquote
    rw [run_seqs_cons, Pattern.lit, run_char_cons, hne]
    rfl

/-- An unquoted value at the end of a pattern. -/
theorem run_value {i : ℕ} {m : Cursor} (hquote : m.rest.head?.any isQuote = false)
    (h : run (.seqs [.group i valuePattern]) some m = some d) :
    ∃ u tail, m.rest = u ++ tail ∧ u ≠ [] ∧ (∀ x ∈ u, isValueChar x) ∧
      tail.head?.any isValueChar = false ∧
      d = ⟨u.reverse ++ m.passed, tail, (i, u) :: m.groups⟩ := by
  rw [run_seqs_cons, run_group, valuePattern] at h
  simp only [Pattern.alts, run_alt, run_quote_none hquote (by decide : isQuote '"'),
    run_quote_none hquote (by decide : isQuote '\''), Option.none_or] at h
  obtain ⟨u, tail, hrest, hne, hu, htail, hd⟩ := run_plus_last (fun m => ⟨_, rfl⟩) h
  refine ⟨u, tail, hrest, hne, hu, htail, ?_⟩
  obtain rfl := Option.some.inj hd
  have hmoved : m.Moved u ⟨u.reverse ++ m.passed, tail, m.groups⟩ := ⟨hrest, rfl⟩
  rw [hmoved.textTo]

def IsDash (s : Str) : Prop := s = ['-'] ∨ s = ['-', '-']

theorem matches_dashes (h : Matches (.seq (.lit '-') (.opt (.lit '-'))) c d) :
    ∃ dash, IsDash dash ∧ c.Moved dash d := by
  obtain ⟨m, hm, hopt⟩ := h
  obtain ⟨hmoved, -⟩ := matches_lit hm
  rcases hopt with hopt | rfl
  · obtain ⟨hmoved', -⟩ := matches_lit hopt
    exact ⟨_, .inr rfl, hmoved.trans hmoved'⟩
  · exact ⟨_, .inl rfl, hmoved⟩

/-- What follows a place in a text without quotes. -/
theorem head_of_moved {a : Str} {p : Char → Bool} (hmoved : c.Moved a d)
    (h : ∀ x ∈ c.rest, p x = false) : d.rest.head?.any p = false := by
  cases hrest : d.rest with
  | nil => rfl
  | cons x s =>
    have hx : p x = false := h x (by rw [hmoved.1, hrest]; simp)
    simpa using hx

/-- A match of the option pattern, in a text without quotes. -/
theorem flagPattern_match (hquote : ∀ x ∈ c.rest, isQuote x = false)
    (h : matchAt flagPattern c = some d) :
    ∃ dash name sep u tail, IsDash dash ∧ name ≠ [] ∧ (∀ x ∈ name, isNameChar x) ∧
      (sep = ['='] ∨ sep ≠ [] ∧ ∀ x ∈ sep, isSpace x) ∧ u ≠ [] ∧ (∀ x ∈ u, isValueChar x) ∧
      tail.head?.any isValueChar = false ∧ c.passed.head?.any isNameChar = false ∧
      c.Moved (dash ++ name ++ sep ++ u) d ∧ d.rest = tail ∧
      d.captured 1 = dash ∧ d.captured 2 = name ∧ d.captured 3 = sep := by
  rw [matchAt, flagPattern] at h
  obtain ⟨hbehind, h⟩ := run_seqs_notAfter h
  obtain ⟨m₁, hm₁, h⟩ := run_seqs_sound h
  obtain ⟨m₂, hm₂, h⟩ := run_seqs_sound h
  obtain ⟨m₃, hm₃, h⟩ := run_seqs_sound h
  obtain ⟨n₁, hdashes, hgroup₁⟩ := matches_group hm₁
  obtain ⟨n₂, hname, hgroup₂⟩ := matches_group hm₂
  obtain ⟨n₃, hsep, hgroup₃⟩ := matches_group hm₃
  obtain ⟨dash, hdash, hmoved₁⟩ := matches_dashes hdashes
  obtain ⟨name, hne, hchars, hmoved₂, hgroups₂⟩ := matches_plus_char hname
  obtain ⟨sep, hsepchars, hmoved₃, hgroups₃⟩ : ∃ sep, (sep = ['='] ∨ sep ≠ [] ∧ ∀ x ∈ sep, isSpace x) ∧
      m₂.Moved sep n₃ ∧ n₃.groups = m₂.groups := by
    rcases hsep with hsep | hsep
    · obtain ⟨hmoved, hgroups⟩ := matches_lit hsep
      exact ⟨_, .inl rfl, hmoved, hgroups⟩
    · obtain ⟨sep, hsepne, hspaces, hmoved, hgroups⟩ := matches_plus_char hsep
      exact ⟨sep, .inr ⟨hsepne, hspaces⟩, hmoved, hgroups⟩
  obtain ⟨hmoved₁, hg₁⟩ := hgroup₁ _ hmoved₁
  obtain ⟨hmoved₂, hg₂⟩ := hgroup₂ _ hmoved₂
  obtain ⟨hmoved₃, hg₃⟩ := hgroup₃ _ hmoved₃
  have hwhole := (hmoved₁.trans hmoved₂).trans hmoved₃
  obtain ⟨u, tail, hrest, hune, hu, htail, rfl⟩ := run_value (head_of_moved hwhole hquote) h
  have hgroups : m₃.groups = [(3, sep), (2, name)] ++ (1, dash) :: n₁.groups := by
    rw [hg₃, hgroups₃, hg₂, hgroups₂, hg₁]
    rfl
  refine ⟨dash, name, sep, u, tail, hdash, hne, hchars, hsepchars, hune, hu, htail, hbehind,
    hwhole.trans ⟨hrest, rfl⟩, rfl, ?_, ?_, ?_⟩ <;>
  · rw [Cursor.captured, hgroups]
    rfl

/-- A match of the assignment pattern, in a text without quotes. -/
theorem assignmentPattern_match (hquote : ∀ x ∈ c.rest, isQuote x = false)
    (h : matchAt assignmentPattern c = some d) :
    ∃ x key gap sep gap' u tail, isLetter x ∧ (∀ y ∈ key, isNameChar y) ∧ (∀ y ∈ gap, isSpace y) ∧
      isSep sep ∧ (∀ y ∈ gap', isSpace y) ∧ u ≠ [] ∧ (∀ y ∈ u, isValueChar y) ∧
      tail.head?.any isValueChar = false ∧ c.passed.head?.any isNameChar = false ∧
      c.Moved (x :: key ++ (gap ++ sep :: gap') ++ u) d ∧ d.rest = tail ∧
      d.captured 1 = x :: key ∧ d.captured 2 = gap ++ sep :: gap' := by
  rw [matchAt, assignmentPattern] at h
  obtain ⟨hbehind, h⟩ := run_seqs_notAfter h
  obtain ⟨m₁, hm₁, h⟩ := run_seqs_sound h
  obtain ⟨m₂, hm₂, h⟩ := run_seqs_sound h
  obtain ⟨n₁, ⟨k₁, hletter, hname⟩, hgroup₁⟩ := matches_group hm₁
  obtain ⟨n₂, ⟨k₂, hgap, k₃, hsep, k₄, hgap', rfl⟩, hgroup₂⟩ := matches_group hm₂
  obtain ⟨x, hx, hletterMoved, hletterGroups⟩ := matches_char hletter
  obtain ⟨key, hkey, hnameMoved, hnameGroups⟩ := matches_star_char hname
  obtain ⟨gap, hgapchars, hgapMoved, hgapGroups⟩ := matches_star_char hgap
  obtain ⟨sep, hsepchar, hsepMoved, hsepGroups⟩ := matches_char hsep
  obtain ⟨gap', hgapchars', hgapMoved', hgapGroups'⟩ := matches_star_char hgap'
  obtain ⟨hmoved₁, hg₁⟩ := hgroup₁ _ (hletterMoved.trans hnameMoved)
  obtain ⟨hmoved₂, hg₂⟩ := hgroup₂ _ (hgapMoved.trans (hsepMoved.trans hgapMoved'))
  have hwhole := hmoved₁.trans hmoved₂
  obtain ⟨u, tail, hrest, hune, hu, htail, rfl⟩ := run_value (head_of_moved hwhole hquote) h
  have hgroups : m₂.groups = (2, gap ++ sep :: gap') :: (1, x :: key) :: n₁.groups := by
    rw [hg₂, hgapGroups', hsepGroups, hgapGroups, hg₁]
    rfl
  refine ⟨x, key, gap, sep, gap', u, tail, hx, hkey, hgapchars, hsepchar, hgapchars', hune, hu, htail,
    hbehind, hwhole.trans ⟨hrest, rfl⟩, rfl, ?_, ?_⟩ <;>
  · rw [Cursor.captured, hgroups]
    rfl

def isQueryChar (x : Char) : Bool := x != '&' && x != '#' && !isSpace x

/-- A match of the query pattern. -/
theorem queryPattern_match (h : matchAt queryPattern c = some d) :
    ∃ mark name u tail, (mark = '?' ∨ mark = '&') ∧ name ≠ [] ∧ (∀ x ∈ name, isNameChar x) ∧
      (∀ x ∈ u, isQueryChar x) ∧ tail.head?.any isQueryChar = false ∧
      c.Moved (mark :: name ++ '=' :: u) d ∧ d.rest = tail ∧
      d.captured 1 = [mark] ∧ d.captured 2 = name ∧ d.captured 3 = ['='] := by
  rw [matchAt, queryPattern] at h
  obtain ⟨m₁, hm₁, h⟩ := run_seqs_sound h
  obtain ⟨m₂, hm₂, h⟩ := run_seqs_sound h
  obtain ⟨m₃, hm₃, h⟩ := run_seqs_sound h
  obtain ⟨n₁, hmark, hgroup₁⟩ := matches_group hm₁
  obtain ⟨n₂, hname, hgroup₂⟩ := matches_group hm₂
  obtain ⟨n₃, hsep, hgroup₃⟩ := matches_group hm₃
  obtain ⟨mark, hmark, hmoved₁, hgroups₁⟩ := matches_char hmark
  obtain ⟨name, hne, hchars, hmoved₂, hgroups₂⟩ := matches_plus_char hname
  obtain ⟨hmoved₃, hgroups₃⟩ := matches_lit hsep
  obtain ⟨hmoved₁, hg₁⟩ := hgroup₁ _ hmoved₁
  obtain ⟨hmoved₂, hg₂⟩ := hgroup₂ _ hmoved₂
  obtain ⟨hmoved₃, hg₃⟩ := hgroup₃ _ hmoved₃
  have hwhole := (hmoved₁.trans hmoved₂).trans hmoved₃
  rw [run_seqs_cons, run_group] at h
  obtain ⟨u, tail, hrest, hu, htail, hd⟩ := run_star_last (fun m => ⟨_, rfl⟩) h
  obtain rfl := Option.some.inj hd
  have hgroups : m₃.groups = [(3, ['=']), (2, name)] ++ (1, [mark]) :: n₁.groups := by
    rw [hg₃, hgroups₃, hg₂, hgroups₂, hg₁]
    rfl
  refine ⟨mark, name, u, tail, by simpa using hmark, hne, hchars, hu, htail, ?_, rfl, ?_, ?_, ?_⟩
  · have hsplit : mark :: name ++ '=' :: u = [mark] ++ name ++ ['='] ++ u := by simp
    rw [hsplit]
    exact hwhole.trans ⟨hrest, rfl⟩
  all_goals
    rw [Cursor.captured, hgroups]
    rfl

/-- The words that announce a credential. -/
def IsKeyword (s : Str) : Prop := ∃ w ∈ ["password", "secret", "token", "credential", "cookie",
  "rpcauth", "rpcuser", "private key"], Spells w s

instance : DecidablePred IsKeyword := fun s =>
  inferInstanceAs (Decidable (∃ w ∈ ["password", "secret", "token", "credential", "cookie",
    "rpcauth", "rpcuser", "private key"], Spells w s))

theorem matches_alts : ∀ {words : List String}, words ≠ [] → Matches (.alts (words.map word)) c d →
    ∃ w ∈ words, ∃ s, Spells w s ∧ c.Moved s d
  | [], hne, _ => absurd rfl hne
  | [w], _, h => by
    obtain ⟨s, hs, hmoved, -⟩ := matches_word h
    exact ⟨w, by simp, s, hs, hmoved⟩
  | w :: w' :: words, _, h => by
    rcases h with h | h
    · obtain ⟨s, hs, hmoved, -⟩ := matches_word h
      exact ⟨w, by simp, s, hs, hmoved⟩
    · obtain ⟨v, hv, s, hs, hmoved⟩ := matches_alts (List.cons_ne_nil w' words) h
      exact ⟨v, List.mem_cons_of_mem w hv, s, hs, hmoved⟩

theorem matches_keyword (h : Matches (.alts (["password", "secret", "token", "credential", "cookie",
    "rpcauth", "rpcuser", "private key"].map word)) c d) : ∃ s, IsKeyword s ∧ c.Moved s d := by
  obtain ⟨w, hw, s, hs, hmoved⟩ := matches_alts (List.cons_ne_nil _ _) h
  exact ⟨s, ⟨w, hw, hs⟩, hmoved⟩

/-- A character of the value after a keyword. -/
def isSecretChar (x : Char) : Bool := !isSpace x && !",;\x7d".toList.contains x

/-- A match of the keyword pattern. -/
theorem keywordPattern_match (h : matchAt (keywordPattern lib) c = some d) :
    ∃ w gap sep gap' u tail, IsKeyword w ∧ (∀ y ∈ gap, isSpace y) ∧
      (sep = [] ∨ ∃ x, sep = [x] ∧ isSep x) ∧ gap' ≠ [] ∧ (∀ y ∈ gap', isSpace y) ∧ u ≠ [] ∧
      (∀ y ∈ u, isSecretChar y) ∧ tail.head?.any isSecretChar = false ∧
      c.passed.head?.any isNameChar = false ∧
      c.passed.head?.any (isWord lib) ≠ c.rest.head?.any (isWord lib) ∧
      c.Moved (w ++ gap ++ sep ++ gap' ++ u) d ∧ d.rest = tail ∧
      d.captured 1 = w ++ gap ++ sep ++ gap' := by
  rw [matchAt, keywordPattern] at h
  obtain ⟨m₁, hm₁, h⟩ := run_seqs_sound h
  obtain ⟨n₁, hfront, hgroup₁⟩ := matches_group hm₁
  obtain ⟨k₀, ⟨hbehind, hk₀⟩, k₁, ⟨hboundary, hk₁⟩, k₂, hword, k₃, ⟨-, hk₃⟩, k₄, hgap, k₅, hsep, k₆, hgap',
    rfl⟩ := hfront
  rw [hk₀] at hk₁ hboundary
  rw [hk₁] at hword
  rw [hk₃] at hgap
  obtain ⟨w, hw, hmoved₁⟩ := matches_keyword hword
  obtain ⟨gap, hgapchars, hmoved₂, -⟩ := matches_star_char hgap
  obtain ⟨sep, hseplen, hsepchars, hmoved₃, -⟩ := matches_opt_char hsep
  obtain ⟨gap', hne', hgapchars', hmoved₄, -⟩ := matches_plus_char hgap'
  obtain ⟨hmoved, hgroups⟩ := hgroup₁ _ (((hmoved₁.trans hmoved₂).trans hmoved₃).trans hmoved₄)
  rw [run_seqs_cons, run_group] at h
  obtain ⟨u, tail, hrest, hne, hu, htail, hd⟩ := run_plus_last (fun m => ⟨_, rfl⟩) h
  obtain rfl := Option.some.inj hd
  refine ⟨w, gap, sep, gap', u, tail, hw, hgapchars, ?_, hne', hgapchars', hne, hu, htail, hbehind,
    hboundary, ?_, rfl, ?_⟩
  · cases sep with
    | nil => exact .inl rfl
    | cons x sep =>
      obtain rfl : sep = [] := by simpa using hseplen
      exact .inr ⟨x, rfl, hsepchars x (by simp)⟩
  · exact hmoved.trans ⟨hrest, rfl⟩
  · rw [Cursor.captured, hgroups]
    rfl

/-- A character of the value that the authorization pattern takes. -/
def isCredentialChar (x : Char) : Bool := !isSpace x && x != ',' && x != '\x7d'

/-- The value that the authorization pattern takes where no quote stands: one word, and the
second one where there is one. -/
theorem run_credential {m : Cursor} (hquote : m.rest.head?.any isQuote = false)
    (h : run (.seqs [.alts [.seqs [.lit '"', .star (.char (· != '"')), .lit '"'],
      .seqs [.lit '\'', .star (.char (· != '\'')), .lit '\''],
      .seq (.plus (.char isCredentialChar))
        (.opt (.seq (.plus space) (.plus (.char isCredentialChar))))]]) some m = some d) :
    ∃ u more, (∀ y ∈ u, isCredentialChar y) ∧ u ≠ [] ∧
      (more = [] ∨ ∃ gap u', more = gap ++ u' ∧ gap ≠ [] ∧ (∀ y ∈ gap, isSpace y) ∧ u' ≠ [] ∧
        ∀ y ∈ u', isCredentialChar y) ∧
      (more = [] → ∀ x y r, d.rest = x :: y :: r → isSpace x → isCredentialChar y = false) ∧
      m.Moved (u ++ more) d ∧ d.rest.head?.any isCredentialChar = false ∧ d.groups = m.groups := by
  rw [run_seqs_cons] at h
  simp only [Pattern.alts, run_alt, run_quote_none hquote (by decide : isQuote '"'),
    run_quote_none hquote (by decide : isQuote '\''), Option.none_or, run_seq] at h
  have hsecond : ∀ m, ∃ e, run (.opt (.seq (.plus space) (.plus (.char isCredentialChar))))
      (run (.seqs []) some) m = some e := by
    intro m
    rw [run_opt]
    cases run (.seq (.plus space) (.plus (.char isCredentialChar))) (run (.seqs []) some) m with
    | none => exact ⟨_, rfl⟩
    | some e => exact ⟨e, rfl⟩
  obtain ⟨u, tail, hrest, hune, hu, htail, hd⟩ := run_plus_last hsecond h
  have hfirst : m.Moved u ⟨u.reverse ++ m.passed, tail, m.groups⟩ := ⟨hrest, rfl⟩
  rw [run_opt, Option.or_eq_some_iff] at hd
  rcases hd with hd | ⟨hnone, hd⟩
  · rw [run_seq] at hd
    obtain ⟨n, hgap, hd⟩ := run_sound (.plus space) hd
    obtain ⟨gap, hgapne, hgapchars, hmoved, hgroups⟩ := matches_plus_char hgap
    obtain ⟨u', tail', hrest', hune', hu', htail', hd⟩ := run_plus_last (fun m => ⟨_, rfl⟩) hd
    obtain rfl := Option.some.inj hd
    refine ⟨u, gap ++ u', hu, hune, .inr ⟨gap, u', rfl, hgapne, hgapchars, hune', hu'⟩, ?_, ?_, htail',
      hgroups⟩
    · intro hnil
      exact absurd (List.append_eq_nil_iff.1 hnil).1 hgapne
    · exact hfirst.trans (hmoved.trans ⟨hrest', rfl⟩)
  · obtain rfl := Option.some.inj hd
    refine ⟨u, [], hu, hune, .inl rfl, ?_, ?_, htail, rfl⟩
    · intro _ x y r htext hx
      by_contra hy
      have hnext : Matches (.seq (.plus space) (.plus (.char isCredentialChar)))
          ⟨u.reverse ++ m.passed, x :: y :: r, m.groups⟩ ⟨y :: x :: (u.reverse ++ m.passed), r, m.groups⟩ :=
        ⟨⟨x :: (u.reverse ++ m.passed), y :: r, m.groups⟩, ⟨_, ⟨x, _, rfl, hx, rfl⟩, .refl⟩,
          _, ⟨y, _, rfl, by simpa using hy, rfl⟩, .refl⟩
      have hsome := run_isSome _ rfl hnext (k := run (.seqs []) some) rfl
      rw [show tail = x :: y :: r from htext] at hnone
      rw [hnone] at hsome
      cases hsome
    · rw [List.append_nil]
      exact hfirst

/-- A match of the authorization pattern, in a text without quotes: one word, and a second
one where there is one. -/
theorem authorizationPattern_match (hquote : ∀ x ∈ c.rest, isQuote x = false)
    (h : matchAt (authorizationPattern lib) c = some d) :
    ∃ w gap sep gap' u more, Spells "authorization" w ∧ (∀ y ∈ gap, isSpace y) ∧ isSep sep ∧
      (∀ y ∈ gap', isSpace y) ∧ u ≠ [] ∧ (∀ y ∈ u, isCredentialChar y) ∧
      (more = [] ∨ ∃ gap'' u', more = gap'' ++ u' ∧ gap'' ≠ [] ∧ (∀ y ∈ gap'', isSpace y) ∧ u' ≠ [] ∧
        ∀ y ∈ u', isCredentialChar y) ∧
      (more = [] → ∀ x y r, d.rest = x :: y :: r → isSpace x → isCredentialChar y = false) ∧
      d.rest.head?.any isCredentialChar = false ∧
      c.passed.head?.any (isWord lib) ≠ c.rest.head?.any (isWord lib) ∧
      c.Moved (w ++ gap ++ sep :: gap' ++ (u ++ more)) d ∧
      d.captured 1 = w ++ gap ++ sep :: gap' := by
  rw [matchAt, authorizationPattern] at h
  obtain ⟨m₁, hm₁, h⟩ := run_seqs_sound h
  obtain ⟨n₁, hfront, hgroup₁⟩ := matches_group hm₁
  obtain ⟨k₁, ⟨hboundary, hk₁⟩, k₂, hword, k₃, hgap, k₄, hsep, k₅, hgap', rfl⟩ := hfront
  rw [hk₁] at hword
  obtain ⟨w, hw, hmoved₁, -⟩ := matches_word hword
  obtain ⟨gap, hgapchars, hmoved₂, -⟩ := matches_star_char hgap
  obtain ⟨sep, hsepchar, hmoved₃, -⟩ := matches_char hsep
  obtain ⟨gap', hgapchars', hmoved₄, -⟩ := matches_star_char hgap'
  obtain ⟨hmoved, hgroups⟩ := hgroup₁ _ (((hmoved₁.trans hmoved₂).trans hmoved₃).trans hmoved₄)
  obtain ⟨u, more, hu, hune, hmore, hgreedy, hmoved', htail, hgroups'⟩ :=
    run_credential (head_of_moved hmoved hquote) h
  refine ⟨w, gap, sep, gap', u, more, hw, hgapchars, hsepchar, hgapchars', hune, hu, hmore, hgreedy, htail,
    hboundary, by simpa using hmoved.trans hmoved', ?_⟩
  rw [Cursor.captured, hgroups', hgroups]
  simp [List.lookup]

/-- A match of the header pattern starts a line with a key. -/
theorem headerPattern_match (h : matchAt headerPattern c = some d) :
    ∃ gap x key gap' gap'' value, (∀ y ∈ gap, isSpace y) ∧ isLetter x ∧ (∀ y ∈ key, isNameChar y) ∧
      (∀ y ∈ gap', isSpace y) ∧ (∀ y ∈ gap'', isSpace y) ∧
      (∀ y ∈ value, y ≠ '\r' ∧ y ≠ '\n') ∧ c.passed.head?.all (· == '\n') ∧
      d.rest.head?.all (· == '\n') ∧
      c.Moved (gap ++ x :: key ++ gap' ++ ':' :: gap'' ++ value) d ∧
      d.captured 1 = gap ++ x :: key ++ gap' ++ ':' :: gap'' ∧ d.captured 2 = x :: key := by
  obtain ⟨m₀, ⟨hstart, hm₀⟩, m₁, hm₁, m₂, hm₂, m₃, ⟨hend, hm₃⟩, rfl⟩ := matchAt_sound h
  rw [hm₀] at hm₁
  subst hm₃
  obtain ⟨n₁, ⟨k₁, hgap, k₂, hkey, k₃, hgap', k₄, hcolon, k₅, hgap'', rfl⟩, hgroup₁⟩ := matches_group hm₁
  obtain ⟨n₂, ⟨j, hletter, hname⟩, hgroup₂⟩ := matches_group hkey
  obtain ⟨n₃, hvalue, hgroup₃⟩ := matches_group hm₂
  obtain ⟨gap, hgapchars, hmoved₁, hgroups₁⟩ := matches_star_char hgap
  obtain ⟨x, hx, hletterMoved, hletterGroups⟩ := matches_char hletter
  obtain ⟨key, hkeychars, hnameMoved, hnameGroups⟩ := matches_star_char hname
  obtain ⟨hmoved₂, hg₂⟩ := hgroup₂ _ (hletterMoved.trans hnameMoved)
  obtain ⟨gap', hgapchars', hmoved₃, hgroups₃⟩ := matches_star_char hgap'
  obtain ⟨hmoved₄, hgroups₄⟩ := matches_lit hcolon
  obtain ⟨gap'', hgapchars'', hmoved₅, hgroups₅⟩ := matches_star_char hgap''
  obtain ⟨value, hvaluechars, hmoved₆, hgroups₆⟩ := matches_star_char hvalue
  obtain ⟨hfront, hg₁⟩ := hgroup₁ _ ((((hmoved₁.trans hmoved₂).trans hmoved₃).trans hmoved₄).trans hmoved₅)
  obtain ⟨hmoved₆, hg₃⟩ := hgroup₃ _ hmoved₆
  refine ⟨gap, x, key, gap', gap'', value, hgapchars, hx, hkeychars, hgapchars', hgapchars'', ?_, hstart,
    hend, ?_, ?_, ?_⟩
  · intro y hy
    simpa using hvaluechars y hy
  · simpa using hfront.trans hmoved₆
  · rw [Cursor.captured, hg₃, hgroups₆, hg₁]
    simp [List.lookup]
  · rw [Cursor.captured, hg₃, hgroups₆, hg₁, hgroups₅, hgroups₄, hgroups₃, hg₂]
    simp [List.lookup]

end BitcoinRpcOperator.Redaction
