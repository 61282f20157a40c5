import BitcoinRpcOperator.AuthorizedWords
import BitcoinRpcOperator.OptionRedaction

/-!
# Redaction of command lines

When the redactor hides the sensitive options of a service. Values end at certain characters,
and what stands before an option may reach into it: an authorization, a bare switch, a
sensitive key or a keyword.
-/

namespace BitcoinRpcOperator.Redaction
open Text Backtracking PythonValues

/-- The tokens joined by single spaces. -/
def commandLine (ts : List Token) : Str := joined [' '] (ts.map Token.text)

/-- Words that stand for tokens, in their order: the sensitive options keep their name only, and
any other token has one word at most. -/
inductive Replaced : List Token → List Str → Prop
  | done : Replaced [] []
  | secret {t : Token} {ts : List Token} {outs : List Str} : t.isSecret → Replaced ts outs →
      Replaced (t :: ts) (t.masked :: outs)
  | other {t : Token} {out : Str} {ts : List Token} {outs : List Str} : ¬ t.isSecret → ' ' ∉ out →
      Replaced ts outs → Replaced (t :: ts) (out :: outs)
  | lost {t : Token} {ts : List Token} {outs : List Str} : ¬ t.isSecret → Replaced ts outs → Replaced (t :: ts) outs

def HidesOptions (lib : Library) (ts : List Token) : Prop :=
  ∃ outs, redactRuntimeValue lib (commandLine ts) = .ok (joined [' '] outs) ∧ Replaced ts outs

section
variable (lib : Library)

/-- A token without the user information of URLs. -/
def Token.shown (t : Token) : Str := redactUrls lib t.text

/-- A token without the values of authorizations, too. -/
def Token.seen (t : Token) : Str := redactAuthorization lib (t.shown lib)

/-- Nothing keeps a sensitive option from being hidden, where a switch before it takes it
(`some`, with whether the switch is sensitive) and `e` is what the token before it ends in: its
value has no stop, or the switch only takes what is hidden already. -/
structure Free (c : Option Bool) (e : Str) (t : Token) : Prop where
  value : c = none ∧ (∀ x ∈ t.seen lib, isStop x = false) ∨ c = some false ∧ t.seen lib = t.masked
  quiet : ¬ Announces e

/-- Nothing reaches over the end of a token into a sensitive option. A switch without a value
takes the next token, if none has taken it; and where a token ends in an authorization with its
value, the next token is lost. -/
inductive Unreached : Option Bool → Str → List Token → Prop
  | rest {c : Option Bool} {e : Str} {ts : List Token} : (∀ t ∈ ts, ¬ t.isSecret) → Unreached c e ts
  | last {c : Option Bool} {e : Str} {t : Token} {ts : List Token} : Free lib c e t → (∀ u ∈ ts, ¬ u.isSecret) →
      (AuthorizesValue lib (t.shown lib) → ∀ u ∈ ts.head?, ∀ x ∈ u.shown lib, isCredentialChar x) →
      Unreached c e (t :: ts)
  | switch {c : Option Bool} {e : Str} {t : Token} {ts : List Token} : t.value = none →
      Unreached (if c = none then some (keyIsSensitive t.name) else none) [] ts → Unreached c e (t :: ts)
  | option {c : Option Bool} {e : Str} {t : Token} {ts : List Token} : t.value ≠ none →
      (t.isSecret → Free lib c e t) → ¬ Authorizes lib (t.shown lib) →
      (t.isSecret ∨ (∀ x ∈ t.text, isStop x = false) ∨ ¬ EndsIn isNameChar IsSwitch t.text) →
      Unreached none (if t.isSecret then [] else t.text) ts → Unreached c e (t :: ts)
  | authorized {c : Option Bool} {e : Str} {t u : Token} {ts : List Token} : (t.isSecret → Free lib c e t) →
      AuthorizesValue lib (t.shown lib) → ¬ u.isSecret → (∀ x ∈ u.shown lib, isCredentialChar x) →
      Unreached none [] ts → Unreached c e (t :: u :: ts)

/-- Nothing reaches over the end of a token into the next one, unless it is a bare switch. -/
structure Closed (t : Token) : Prop where
  unauthorized : ¬ Authorizes lib (t.shown lib)
  ends : t.value = none ∨ t.isSecret ∨
    ¬ Announces t.text ∧ ((∀ x ∈ t.text, isStop x = false) ∨ ¬ EndsIn isNameChar IsSwitch t.text)

/-- The words of a command line after the passes for options, queries, assignments and keywords,
where `c`, `c₆` and `c₇` reach into the first one. -/
def redactedWords (c c₆ c₇ : Option Bool) (ws : List Str) : List Str :=
  (keywordPass lib).onParts ' ' c₇ (assignmentPass.onParts ' ' c₆ ((flagPass.onParts ' ' c ws).map redactQueries))

end

section
variable {lib : Library} {ts : List Token}

theorem narrow_urls : Narrow ' ' (urlPattern lib) :=
  ⟨⟨rfl, rfl, rfl, ⟨rfl, rfl, rfl, trivial⟩, trivial⟩, ⟨rfl, rfl⟩, rfl, trivial⟩

theorem narrow_queries : Narrow ' ' queryPattern :=
  ⟨rfl, ⟨rfl, rfl⟩, rfl, rfl, trivial⟩

theorem edit_url {s : Str} (hs : ∀ c ∈ s, isQuote c = false) : Edit s (redactUrls lib s) :=
  masks_urls.edit (substitutes_subFrom (advances_of_consumes rfl) _ _ _) hs

/-- All whitespace in a line are the spaces between its tokens. -/
theorem space_of_line {ss : List Str} (hss : ∀ s ∈ ss, IsToken s) :
    ∀ c ∈ joined [' '] ss, isSpace c → c = ' ' := by
  cases ss with
  | nil => nofun
  | cons s ss =>
    rw [List.forall_mem_cons] at hss
    rw [joined_parts]
    exact space_of_parts hss.1.no_space hss.2

/-- A command line has no header in it. -/
theorem redactHeaders_line {ss : List Str} (hss : ∀ s ∈ ss, IsToken s)
    (hfirst : ∀ s ∈ ss.head?, s.head? = some '-') :
    redactHeaders (joined [' '] ss) = joined [' '] ss := by
  have hadvances : Advances headerPattern := advances_of_consumes rfl
  have hnone : ∀ front x back, joined [' '] ss = front ++ x :: back →
      matchAt headerPattern ⟨front.reverse ++ [], x :: back ++ [], []⟩ = none := by
    intro front x back hsplit
    rw [List.append_nil, List.append_nil]
    refine matchAt_none fun d h => ?_
    obtain ⟨gap, y, key, gap', gap'', value, hgap, hy, -, -, -, -, hstart, -, ⟨hrest, -⟩, -⟩ := headerPattern_match h
    cases front with
    | nil =>
      obtain rfl : x = '-' := by
        cases ss with
        | nil => cases hsplit
        | cons s ss =>
          obtain ⟨r, hs⟩ := List.head?_eq_some_iff.1 (hfirst s rfl)
          rw [joined_parts, hs] at hsplit
          exact (List.cons.inj hsplit).1.symm
      cases gap with
      | nil =>
        obtain ⟨rfl, -⟩ := List.cons.inj hrest
        exact absurd hy (by decide)
      | cons z gap =>
        obtain ⟨rfl, -⟩ := List.cons.inj hrest
        exact absurd (hgap '-' (by simp)) (by decide)
    | cons y front =>
      obtain ⟨front', z, hlast⟩ := (List.eq_nil_or_concat (y :: front)).resolve_left (List.cons_ne_nil _ _)
      obtain rfl : z = '\n' := by simpa [hlast] using hstart
      have hmem : '\n' ∈ joined [' '] ss := by
        rw [hsplit, hlast]
        simp
      exact absurd (space_of_line hss '\n' hmem (by decide)) (by decide)
  have hkeeps : Substitutes headerPattern (keep [1] 2) [] _ _ :=
    Substitutes.keeps_front hnone (.done (hadvances.at_end _))
  rw [List.append_nil] at hkeeps
  exact hkeeps.sub_eq

theorem shown_token (t : Token) : IsToken (t.shown lib) :=
  isToken_edit (edit_url fun c hc => (t.isToken_text.chars c hc).2) t.isToken_text

theorem shown_tokens : ∀ s ∈ ts.map (Token.shown lib), IsToken s := by
  intro s hs
  obtain ⟨t, -, rfl⟩ := List.mem_map.1 hs
  exact shown_token t

theorem edit_authorization {s : Str} (hs : IsToken s) : Edit s (redactAuthorization lib s) :=
  masks_authorization.edit (substitutes_subFrom (advances_of_consumes rfl) _ _ _) fun c hc => (hs.chars c hc).2

theorem seen_token (t : Token) : IsToken (t.seen lib) :=
  isToken_edit (edit_authorization (shown_token t)) (shown_token t)

section
variable {c c₆ c₇ : Option Bool} {w : Str} {ws : List Str}

theorem flagWords_tokens (hws : ∀ w ∈ ws, IsToken w) : ∀ w ∈ flagPass.onParts ' ' c ws, IsToken w :=
  tokens_onParts masks_flags (advances_of_consumes rfl) rfl ⟨by decide, by decide⟩ hws

theorem redactQueries_token (hw : IsToken w) : IsToken (redactQueries w) :=
  isToken_edit (edit_queries fun c hc => (hw.chars c hc).2) hw

theorem queryWords_tokens (hws : ∀ w ∈ ws, IsToken w) :
    ∀ w ∈ (flagPass.onParts ' ' c ws).map redactQueries, IsToken w := by
  intro w hw
  obtain ⟨w', hw', rfl⟩ := List.mem_map.1 hw
  exact redactQueries_token (flagWords_tokens hws w' hw')

theorem assignmentWords_tokens (hws : ∀ w ∈ ws, IsToken w) :
    ∀ w ∈ assignmentPass.onParts ' ' c₆ ((flagPass.onParts ' ' c ws).map redactQueries), IsToken w :=
  tokens_onParts masks_assignments (advances_of_consumes rfl) rfl ⟨by decide, by decide⟩ (queryWords_tokens hws)

theorem redactedWords_tokens (hws : ∀ w ∈ ws, IsToken w) : ∀ w ∈ redactedWords lib c c₆ c₇ ws, IsToken w :=
  tokens_onParts masks_keywords (advances_of_consumes rfl) rfl ⟨rfl, rfl⟩ (assignmentWords_tokens hws)

end

/-- What becomes of a command line. -/
theorem redactText_line : ∃ ws, Gathered lib 0 (ts.map (Token.shown lib)) [] ws ∧ (∀ w ∈ ws, IsToken w) ∧
    redactText lib (commandLine ts) = joined [' '] (redactedWords lib none none none ws) := by
  have hurls : redactUrls lib (commandLine ts) = joined [' '] (ts.map (Token.shown lib)) := by
    rw [redactUrls, commandLine, sub_joined narrow_urls (advances_of_consumes rfl) fun _ _ _ _ => rfl,
      List.map_map]
    rfl
  have hheaders : redactHeaders (joined [' '] (ts.map (Token.shown lib))) =
      joined [' '] (ts.map (Token.shown lib)) := by
    refine redactHeaders_line shown_tokens fun s hs => ?_
    obtain ⟨t, -, rfl⟩ := List.mem_map.1 (List.mem_of_mem_head? hs)
    obtain ⟨r, hr⟩ := t.text_cons
    have hedit : Edit t.text (t.shown lib) := edit_url fun c hc => (t.isToken_text.chars c hc).2
    rw [hedit.head_eq, hr, List.head?_cons]
  have htokens : ∀ s ∈ ts.map (Token.shown lib), IsToken s := shown_tokens
  obtain ⟨ws, hauthorization, hgathered⟩ := @redactAuthorization_line lib _ htokens
  have hws := (hgathered.tokens htokens).2
  refine ⟨ws, hgathered, hws, ?_⟩
  have hflags : redactFlags (joined [' '] ws) = joined [' '] (flagPass.onParts ' ' none ws) :=
    sub_line flagPass_lawful hws
  have hqueries : redactQueries (joined [' '] (flagPass.onParts ' ' none ws)) =
      joined [' '] ((flagPass.onParts ' ' none ws).map redactQueries) :=
    sub_joined narrow_queries (advances_of_consumes rfl) (fun _ _ _ _ => rfl) _
  have hassignments : redactAssignments (joined [' '] ((flagPass.onParts ' ' none ws).map redactQueries)) =
      joined [' '] (assignmentPass.onParts ' ' none ((flagPass.onParts ' ' none ws).map redactQueries)) :=
    sub_line assignmentPass_lawful (queryWords_tokens hws)
  have hkeywords : redactKeywords lib (joined [' '] (assignmentPass.onParts ' ' none
      ((flagPass.onParts ' ' none ws).map redactQueries))) = joined [' '] (redactedWords lib none none none ws) :=
    sub_line keywordPass_lawful (assignmentWords_tokens hws)
  rw [redactText, hurls, hheaders, hauthorization, hflags, hqueries, hassignments, hkeywords]

end

section
variable {lib : Library} {t : Token}

theorem head_unmarked (t : Token) : ∀ c ∈ t.head, isMark c = false := by
  intro c hc
  obtain ⟨hspace, hsep, -, -, -, hslash⟩ := isNameChar_cases (t.head_names c hc)
  simp [isMark, hspace, hsep, hslash]

theorem edit_seen (t : Token) : Edit t.text (t.shown lib) ∧ Edit (t.shown lib) (t.seen lib) :=
  ⟨edit_url fun c hc => (t.isToken_text.chars c hc).2, edit_authorization (shown_token t)⟩

theorem seen_eq (t : Token) : redactAuthorization lib (t.shown lib) = t.seen lib := rfl

/-- An option with a value stays one. -/
theorem seen_option (ht : t.value ≠ none) : ∃ v, v ≠ [] ∧ t.seen lib = t.head ++ '=' :: v := by
  obtain ⟨v, hvalue⟩ := Option.ne_none_iff_exists'.1 ht
  have hne : v ≠ [] := by
    rintro rfl
    exact t.value_ne hvalue
  have htext : t.text = t.head ++ '=' :: v := by rw [Token.text, hvalue]
  obtain ⟨hurl, hauthorization⟩ := @edit_seen lib t
  obtain ⟨v', hne', hv'⟩ := Edit.keeps_name (head_unmarked t) hne (htext ▸ hurl)
  rw [hv'] at hauthorization
  exact Edit.keeps_name (head_unmarked t) hne' hauthorization

theorem shown_switch (ht : t.value = none) : t.shown lib = t.head := by
  have htext : t.text = t.head ++ [] := by rw [Token.text, ht, List.append_nil]
  have hurl := (@edit_seen lib t).1
  rw [htext] at hurl
  obtain ⟨s, hs, hnil⟩ := hurl.keeps_front (head_unmarked t)
  cases hnil
  rw [hs, List.append_nil]

theorem seen_switch (ht : t.value = none) : t.seen lib = t.head := by
  have hauthorization := (@edit_seen lib t).2
  rw [shown_switch ht, ← List.append_nil t.head] at hauthorization
  obtain ⟨s, hs, hnil⟩ := hauthorization.keeps_front (head_unmarked t)
  cases hnil
  rw [hs, List.append_nil]

/-- What it takes for a sensitive option to be hidden in the end. -/
theorem option_masked_iff {c c₆ c₇ : Option Bool} :
    (keywordPass lib).onPart c₇ (assignmentPass.onPart c₆ (redactQueries (flagPass.onPart c (t.seen lib)))) =
      t.masked ↔ flagPass.onPart c (t.seen lib) = t.masked ∧ c₆ ≠ some true ∧ c₇ ≠ some true := by
  have hflag : IsToken (flagPass.onPart c (t.seen lib)) :=
    (seen_token t).onPart masks_flags (advances_of_consumes rfl) rfl ⟨rfl, rfl⟩
  have hquery := redactQueries_token hflag
  have hassignment := hquery.onPart (p := assignmentPass) masks_assignments (advances_of_consumes rfl) rfl
    ⟨rfl, rfl⟩ (c := c₆)
  rw [onPart_masked_iff masks_keywords (advances_of_consumes rfl) rfl ⟨rfl, rfl⟩
      (fun _ h hd hm => keywords_same h hd hm) hassignment,
    onPart_masked_iff masks_assignments (advances_of_consumes rfl) rfl ⟨rfl, rfl⟩
      (fun hquote h hd hm => assignments_same hquote h hd hm) hquery,
    redactQueries_masked hflag]
  constructor
  · rintro ⟨h₇, h₆, h⟩
    exact ⟨h, h₆, h₇⟩
  · rintro ⟨h, h₆, h₇⟩
    exact ⟨h₇, h₆, h⟩

/-- What it takes for the option pattern to hide a sensitive option. -/
theorem flags_masked_iff (ht : t.isSecret) {c : Option Bool} : flagPass.onPart c (t.seen lib) = t.masked ↔
    c = none ∧ (∀ x ∈ t.seen lib, isStop x = false) ∨ c = some false ∧ t.seen lib = t.masked := by
  obtain ⟨hvalue, hsensitive⟩ := Bool.and_eq_true _ _ ▸ ht
  obtain ⟨v, hne, hv⟩ := @seen_option lib t (by rw [← Option.isSome_iff_ne_none]; exact hvalue)
  have htoken := @seen_token lib t
  rcases c with _ | _ | _
  · rw [hv] at htoken ⊢
    simpa using flags_alone hsensitive htoken hne
  · simpa using flags_taken htoken
  · have hnot := onPart_not_dash (p := flagPass) (t := t) masks_flags (advances_of_consumes rfl) rfl
      ⟨rfl, rfl⟩ htoken (c := some true) (.inl rfl)
    simpa using hnot

/-- An option whose value has no stop is taken by the option pattern as a whole. -/
theorem flag_carry_option {v : Str} (hv : IsToken (t.head ++ '=' :: v)) (hne : v ≠ [])
    (hall : ∀ c ∈ t.head ++ '=' :: v, isValueChar c) {c : Option Bool} {ss : List Str} (hss : ∀ s ∈ ss, IsToken s) :
    flagPass.carry ' ' c (t.head ++ '=' :: v) ss = none := by
  cases c with
  | some b => exact Pass.carry_taken hall b ss
  | none =>
    obtain ⟨d, hd, hrest⟩ := flag_takes_option t hv hne hall
    refine flagPass_lawful.toParted.carry_whole (by simp) hd hrest fun e he hless => ?_
    obtain ⟨a, hmoved⟩ := matches_moved flagPattern (matchAt_sound he)
    obtain ⟨dash, name, -, -, hsplit, hdash, -, hname, -⟩ := flag_crosses hv.no_space (fun x hx => (hv.chars x hx).2)
      hss he hmoved.1 hless
    have hequals := flag_names hdash hname '=' (by rw [← hsplit]; simp)
    exact absurd hequals (by decide)

/-- A switch takes the next token. -/
theorem flag_carry_switch (t : Token) {u : Str} {ss : List Str} (hss : ∀ s ∈ u :: ss, IsToken s) :
    flagPass.carry ' ' none t.head (u :: ss) = some (keyIsSensitive t.name) := by
  obtain ⟨r, hr, hrne⟩ := t.head_split
  have hrnames : ∀ c ∈ r, isNameChar c := fun c hc => t.head_names c (by rw [hr]; simp [hc])
  obtain ⟨x, u', hu, hx⟩ := (hss u (by simp)).head
  have hvalue : isValueChar x := by rcases hx with rfl | rfl <;> decide
  obtain ⟨e, he⟩ : ∃ e, Matches flagPattern ⟨[], t.head ++ partsAfter ' ' (u :: ss), []⟩ e := by
    rw [hr, partsAfter, hu]
    refine ⟨_, _, ⟨rfl, rfl⟩, _, ⟨_, ⟨_, ⟨'-', _, rfl, rfl, rfl⟩, .inr rfl⟩, rfl⟩, _,
      ⟨_, matches_plus_run hrne hrnames _ _ _, rfl⟩, _,
      ⟨_, .inr ⟨_, ⟨' ', x :: (u' ++ partsAfter ' ' ss), rfl, by decide, rfl⟩, .refl⟩, rfl⟩, _,
      ⟨_, .inr (.inr ⟨_, ⟨x, _, rfl, hvalue, rfl⟩, .refl⟩), rfl⟩, rfl⟩
  obtain ⟨d, hd⟩ := matchAt_isSome rfl he
  have hspace : ∀ c ∈ t.head, isSpace c = false := names_no_space t.head_names
  have hquote : ∀ c ∈ t.head, isQuote c = false := fun c hc => (isNameChar_cases (t.head_names c hc)).2.2.2.1
  obtain ⟨a, hmoved⟩ := matches_moved flagPattern (matchAt_sound hd)
  have hless : d.rest.length < (partsAfter ' ' (u :: ss)).length := by
    by_contra hnot
    obtain ⟨dash, name, sep, v, -, -, -, -, hsep, -, -, -, -, ⟨hrest, -⟩, -⟩ :=
      flagPattern_match (quotes_of_parts hquote hss) hd
    obtain ⟨m, hm, -⟩ := Pass.split_ahead (u := t.head) hrest hnot
    obtain ⟨y, hy, hname⟩ : ∃ y ∈ sep, isNameChar y = false := by
      rcases hsep with rfl | ⟨hne, hspaces⟩
      · exact ⟨'=', by simp, by decide⟩
      · obtain ⟨y, sep, rfl⟩ := List.exists_cons_of_ne_nil hne
        have hy := hspaces y (by simp)
        refine ⟨y, by simp, ?_⟩
        by_contra hname
        rw [(isNameChar_cases (by simpa using hname)).1] at hy
        cases hy
    have hnames := t.head_names y (by rw [hm]; simp [hy])
    rw [hname] at hnames
    cases hnames
  rw [Pass.carry_match (p := flagPass) (by rw [hr]; simp) hd hless]
  obtain ⟨dash, name, -, -, hsplit, hdash, -, -, -, -, -, -, h₂, -⟩ :=
    flag_crosses hspace hquote hss hd hmoved.1 hless
  have hkey : keyIsSensitive (dash ++ name) = keyIsSensitive name :=
    keyIsSensitive_dashes (by rcases hdash with rfl | rfl <;> simp)
  have hhides : flagPass.hides d = keyIsSensitive name := by rw [← h₂]; rfl
  rw [hhides, ← hkey, ← hsplit, t.head_sensitive]

end

section
variable {lib : Library} {c c₆ c₇ : Option Bool} {w : Str} {ws outs : List Str} {t : Token} {ts : List Token}

theorem announces_flags (hw : IsToken w) (h : Announces (flagPass.onPart c w)) : Announces w :=
  h.of_onPart masks_flags (advances_of_consumes rfl) rfl (fun _ hx => (isKeyChar_value hx).1) hw

/-- The words after the passes, the first one apart. Where a word announces nothing at its end,
neither an assignment nor a keyword reaches from it into the next one. -/
theorem redactedWords_cons (hw : IsToken w) (hws : ∀ w ∈ ws, IsToken w) : ∃ c₆' c₇',
    redactedWords lib c c₆ c₇ (w :: ws) =
      (keywordPass lib).onPart c₇ (assignmentPass.onPart c₆ (redactQueries (flagPass.onPart c w))) ::
        redactedWords lib (flagPass.carry ' ' c w ws) c₆' c₇' ws ∧
      (¬ Announces (flagPass.onPart c w) → c₆' ≠ some true ∧ c₇' ≠ some true) := by
  have hflag : IsToken (flagPass.onPart c w) :=
    hw.onPart masks_flags (advances_of_consumes rfl) rfl ⟨by decide, by decide⟩
  have hquery := redactQueries_token hflag
  have hassignment : IsToken (assignmentPass.onPart c₆ (redactQueries (flagPass.onPart c w))) :=
    hquery.onPart masks_assignments (advances_of_consumes rfl) rfl ⟨by decide, by decide⟩
  refine ⟨_, _, rfl, fun hquiet => ⟨fun h => hquiet ?_, fun h => hquiet ?_⟩⟩
  · have hend : Announces (redactQueries (flagPass.onPart c w)) :=
      .inl (assignment_carry hquery (queryWords_tokens hws) h)
    exact hend.of_edit (edit_queries fun x hx => (hflag.chars x hx).2) hflag
  · have hend : Announces (assignmentPass.onPart c₆ (redactQueries (flagPass.onPart c w))) :=
      .inr (keyword_carry hassignment (assignmentWords_tokens hws) h)
    have hend' := hend.of_onPart masks_assignments (advances_of_consumes rfl) rfl
      (fun _ hx => (isKeyChar_value hx).1) hquery
    exact hend'.of_edit (edit_queries fun x hx => (hflag.chars x hx).2) hflag

theorem length_redactedWords : (redactedWords lib c c₆ c₇ ws).length = ws.length := by
  simp only [redactedWords, Pass.length_onParts, List.length_map]

/-- Any words without a space stand for tokens with no sensitive option among them. -/
theorem replaced_of_length (hts : ∀ t ∈ ts, ¬ t.isSecret) (hlength : outs.length ≤ ts.length)
    (houts : ∀ out ∈ outs, IsToken out) : Replaced ts outs := by
  induction ts generalizing outs with
  | nil =>
    obtain rfl := List.length_eq_zero_iff.1 (Nat.le_zero.1 hlength)
    exact .done
  | cons t ts ih =>
    rw [List.forall_mem_cons] at hts
    cases outs with
    | nil => exact .lost hts.1 (ih hts.2 (Nat.zero_le _) houts)
    | cons out outs =>
      rw [List.forall_mem_cons] at houts
      have hspace : ' ' ∉ out := fun hmem => absurd (houts.1.no_space ' ' hmem) (by decide)
      exact .other hts.1 hspace (ih hts.2 (Nat.le_of_succ_le_succ hlength) houts.2)

theorem replaced_rest (hts : ∀ t ∈ ts, ¬ t.isSecret) (hlength : ws.length ≤ ts.length) (hws : ∀ w ∈ ws, IsToken w) :
    Replaced ts (redactedWords lib c c₆ c₇ ws) :=
  replaced_of_length hts (length_redactedWords.trans_le hlength) (redactedWords_tokens hws)

/-- The word of an option that nothing reaches into. -/
theorem replaced_first {e : Str} (hfree : t.isSecret → Free lib c e t)
    (hreach : ¬ Announces e → c₆ ≠ some true ∧ c₇ ≠ some true) (hrest : Replaced ts outs) :
    Replaced (t :: ts) ((keywordPass lib).onPart c₇
      (assignmentPass.onPart c₆ (redactQueries (flagPass.onPart c (t.seen lib)))) :: outs) := by
  by_cases ht : t.isSecret
  · obtain ⟨h₆, h₇⟩ := hreach (hfree ht).quiet
    rw [option_masked_iff.2 ⟨(flags_masked_iff ht).2 (hfree ht).value, h₆, h₇⟩]
    exact .secret ht hrest
  · have hflag : IsToken (flagPass.onPart c (t.seen lib)) :=
      (seen_token t).onPart masks_flags (advances_of_consumes rfl) rfl ⟨by decide, by decide⟩
    have hassignment : IsToken (assignmentPass.onPart c₆ (redactQueries (flagPass.onPart c (t.seen lib)))) :=
      (redactQueries_token hflag).onPart masks_assignments (advances_of_consumes rfl) rfl ⟨by decide, by decide⟩
    have hkeyword : IsToken ((keywordPass lib).onPart c₇
        (assignmentPass.onPart c₆ (redactQueries (flagPass.onPart c (t.seen lib))))) :=
      hassignment.onPart masks_keywords (advances_of_consumes rfl) rfl ⟨rfl, rfl⟩
    exact .other ht (fun hmem => absurd (hkeyword.no_space ' ' hmem) (by decide)) hrest

theorem head_quiet (t : Token) : ¬ Announces t.head := by
  have hsep : ∀ {x : Str}, (∀ c ∈ x, isNameChar c) → ¬ x.getLast?.any isSep := by
    intro x hx hlast
    obtain ⟨sep, hsep, hsplit⟩ := dropLast_of_sep hlast
    have hname := (isNameChar_cases (hx sep (by rw [hsplit]; simp))).2.1
    rw [hname] at hsep
    cases hsep
  have hnames : ∀ {front x : Str}, t.head = front ++ x → ∀ c ∈ x, isNameChar c :=
    fun hx c hc => t.head_names c (by rw [hx]; simp [hc])
  rintro (⟨x, ⟨-, hlast, -⟩, front, hx, -⟩ | ⟨x, hx | ⟨hlast, -⟩, front, hhead, hfront⟩)
  · exact hsep (hnames hx) hlast
  · -- The whole of the option would be the keyword.
    obtain rfl : front = [] := by
      by_contra hne
      obtain ⟨front', y, rfl⟩ := (List.eq_nil_or_concat front).resolve_left hne
      have hy := t.head_names y (by rw [hhead]; simp)
      simp [hy] at hfront
    obtain ⟨r, hr⟩ := t.head_cons
    obtain ⟨v, hv, hspells⟩ := hx
    rw [← List.nil_append x, ← hhead, hr] at hspells
    have hdash : ∀ v ∈ ["password", "secret", "token", "credential", "cookie", "rpcauth", "rpcuser", "private key"],
        v.toList.head?.any (letter · '-') = false := by decide
    obtain ⟨y, v', hy, -, hword⟩ := List.forall₂_cons_right_iff.1 hspells
    have hnone := hdash v hv
    rw [hword, List.head?_cons, Option.any_some, hy] at hnone
    cases hnone
  · exact hsep (hnames hhead) hlast

/-- A switch has no authorization in it. -/
theorem switch_unauthorized (ht : t.value = none) : ¬ Authorizes lib (t.shown lib) := by
  rw [shown_switch ht]
  rintro ⟨x, hx, front, hhead, -⟩
  obtain ⟨w, sep, u, rfl, -, hsep, -⟩ := hx.split
  have hname := (isNameChar_cases (t.head_names sep (by rw [hhead]; simp))).2.1
  rw [hname] at hsep
  cases hsep

theorem masked_end (t : Token) : MaskedEnd t.masked := ⟨t.head, '=', by decide, rfl⟩

/-- A switch takes the next word, unless it has been taken itself. -/
theorem switch_carry (t : Token) (hws : ∀ w ∈ ws, IsToken w) :
    redactedWords lib (flagPass.carry ' ' c t.head ws) c₆ c₇ ws =
      redactedWords lib (if c = none then some (keyIsSensitive t.name) else none) c₆ c₇ ws := by
  cases ws with
  | nil => rfl
  | cons w ws =>
    cases c with
    | none => rw [flag_carry_switch t hws, if_pos rfl]
    | some b =>
      have htakes : ∀ x ∈ t.head, flagPass.takes x := fun x hx =>
        (isKeyChar_value (by simp [isKeyChar, t.head_names x hx])).1
      rw [Pass.carry_taken htakes, if_neg (Option.some_ne_none b)]

/-- Nothing behind an option is taken for its value. -/
theorem option_carry {e : Str} (hws : ∀ w ∈ ws, IsToken w) (ht : t.value ≠ none) (hfree : t.isSecret → Free lib c e t)
    (hend : t.isSecret ∨ (∀ x ∈ t.text, isStop x = false) ∨ ¬ EndsIn isNameChar IsSwitch t.text) :
    flagPass.carry ' ' c (t.seen lib) ws = none := by
  obtain ⟨hurl, hauthorization⟩ := @edit_seen lib t
  obtain ⟨v, hne, hv⟩ := @seen_option lib t ht
  have htoken := @seen_token lib t
  have hstopless : (∀ x ∈ t.seen lib, isStop x = false) → flagPass.carry ' ' c (t.seen lib) ws = none := by
    rw [hv] at htoken ⊢
    exact fun hall => flag_carry_option htoken hne (option_value t htoken hall) hws
  rcases hend with hsecret | hall | hswitch
  · rcases (hfree hsecret).value with ⟨-, hall⟩ | ⟨rfl, hseen⟩
    · exact hstopless hall
    · rw [hseen]
      exact Pass.carry_taken (fun x hx => (t.masked_chars x hx).1) false ws
  · exact hstopless (hauthorization.chars (by decide) (hurl.chars (by decide) hall))
  · by_contra hcarry
    obtain ⟨b, hb⟩ := Option.ne_none_iff_exists'.1 hcarry
    have hseen := flag_carry htoken hws hb
    have hswitches : ∀ x, IsSwitch x → (∀ y ∈ x, isSpace y = false) → IsEnd x := fun _ hx _ => hx.isEnd
    have hshown := EndsIn.of_edit hswitches hauthorization (shown_token t) hseen
    exact hswitch (EndsIn.of_edit hswitches hurl t.isToken_text hshown)

/-- Where nothing reaches into a sensitive option, the words of a command line have it hidden. -/
theorem replaced_words {e : Str} (h : Unreached lib c e ts)
    (hgathered : Gathered lib 0 (ts.map (Token.shown lib)) [] ws)
    (hreach : ¬ Announces e → c₆ ≠ some true ∧ c₇ ≠ some true) : Replaced ts (redactedWords lib c c₆ c₇ ws) := by
  induction h generalizing ws c₆ c₇ with
  | @rest c e ts hts =>
    refine replaced_rest hts ?_ (hgathered.tokens shown_tokens).2
    have hlength := hgathered.length_le
    rwa [List.length_map] at hlength
  | @last c e t ts hfree hts hnext =>
    have hws := (hgathered.tokens shown_tokens).2
    obtain ⟨ws, rfl, hlength⟩ := hgathered.first fun hvalue u hu => by
      rw [List.head?_map] at hu
      obtain ⟨u', hu', rfl⟩ := Option.map_eq_some_iff.1 hu
      exact hnext hvalue u' hu'
    rw [List.forall_mem_cons] at hws
    obtain ⟨c₆', c₇', hcons, -⟩ := @redactedWords_cons lib c c₆ c₇ _ _ hws.1 hws.2
    rw [List.length_map] at hlength
    rw [hcons]
    exact replaced_first (fun _ => hfree) hreach (replaced_rest hts hlength hws.2)
  | @switch c e t ts ht _ ih =>
    have hws := (hgathered.tokens shown_tokens).2
    obtain ⟨ws, rfl, hrest⟩ := hgathered.alone (switch_unauthorized ht)
    rw [List.forall_mem_cons] at hws
    obtain ⟨c₆', c₇', hcons, hquiet⟩ := @redactedWords_cons lib c c₆ c₇ _ _ hws.1 hws.2
    have hsame : redactedWords lib (flagPass.carry ' ' c (t.seen lib) ws) c₆' c₇' ws =
        redactedWords lib (if c = none then some (keyIsSensitive t.name) else none) c₆' c₇' ws := by
      rw [seen_switch ht]
      exact switch_carry t hws.2
    rw [hcons]
    refine replaced_first (e := e) (fun h => absurd h (by simp [Token.isSecret, ht])) hreach ?_
    rw [seen_eq, hsame]
    refine ih hrest fun _ => hquiet fun hflags => ?_
    have hseen := announces_flags hws.1 hflags
    rw [seen_eq, seen_switch ht] at hseen
    exact head_quiet t hseen
  | @option c e t ts ht hfree hnot hend _ ih =>
    have hws := (hgathered.tokens shown_tokens).2
    obtain ⟨ws, rfl, hrest⟩ := hgathered.alone hnot
    rw [List.forall_mem_cons] at hws
    obtain ⟨c₆', c₇', hcons, hquiet⟩ := @redactedWords_cons lib c c₆ c₇ _ _ hws.1 hws.2
    have hcarry : flagPass.carry ' ' c (redactAuthorization lib (t.shown lib)) ws = none :=
      option_carry hws.2 ht hfree hend
    rw [hcons]
    refine replaced_first hfree hreach ?_
    rw [hcarry]
    refine ih hrest fun he => hquiet fun hflags => ?_
    by_cases hsecret : t.isSecret
    · rw [seen_eq,
        (flags_masked_iff hsecret).2 (hfree hsecret).value] at hflags
      exact (masked_end t).not_announces (masked_token t) hflags
    · rw [if_neg hsecret] at he
      obtain ⟨hurl, hauthorization⟩ := @edit_seen lib t
      have hshown := (announces_flags hws.1 hflags).of_edit hauthorization (shown_token t)
      exact he (hshown.of_edit hurl t.isToken_text)
  | @authorized c e t u ts hfree hvalue hu hchars _ ih =>
    have hws := (hgathered.tokens shown_tokens).2
    obtain ⟨ws, rfl, hmasked, hrest⟩ := hgathered.authorized hvalue hchars
    rw [List.forall_mem_cons] at hws
    obtain ⟨c₆', c₇', hcons, hquiet⟩ := @redactedWords_cons lib c c₆ c₇ _ _ hws.1 hws.2
    have hcarry : flagPass.carry ' ' c (redactAuthorization lib (t.shown lib)) ws = none := by
      by_contra hcarry
      obtain ⟨b, hb⟩ := Option.ne_none_iff_exists'.1 hcarry
      exact hmasked.not_endsIn (fun _ hx _ => hx.isEnd) hws.1 (flag_carry hws.1 hws.2 hb)
    rw [hcons]
    refine replaced_first hfree hreach (.lost hu ?_)
    rw [hcarry]
    exact ih hrest fun _ => hquiet fun hflags => hmasked.not_announces hws.1 (announces_flags hws.1 hflags)

/-- Words that stand for as many tokens stand for one each. -/
theorem Replaced.secrets (h : Replaced ts outs) : outs.length ≤ ts.length ∧
    (outs.length = ts.length → List.Forall₂ (fun t out => t.isSecret → out = t.masked) ts outs) := by
  induction h with
  | done => exact ⟨le_rfl, fun _ => .nil⟩
  | secret _ _ ih => exact ⟨Nat.succ_le_succ ih.1, fun h => .cons (fun _ => rfl) (ih.2 (Nat.succ.inj h))⟩
  | other ht _ _ ih =>
    exact ⟨Nat.succ_le_succ ih.1, fun h => .cons (fun h' => absurd h' ht) (ih.2 (Nat.succ.inj h))⟩
  | @lost t ts outs _ _ ih =>
    refine ⟨ih.1.trans (Nat.le_succ _), fun h => ?_⟩
    rw [List.length_cons] at h
    omega

/-- The words of a line can be told from the line. -/
theorem words_of_line (houts : ∀ out ∈ outs, ' ' ∉ out) (hws : ∀ w ∈ ws, IsToken w) (hne : ws ≠ [])
    (h : joined [' '] outs = joined [' '] ws) : outs = ws := by
  obtain ⟨w, ws, rfl⟩ := List.exists_cons_of_ne_nil hne
  have hspace : ∀ x ∈ w :: ws, ' ' ∉ x := fun x hx hmem => absurd ((hws x hx).no_space ' ' hmem) (by decide)
  cases outs with
  | nil =>
    obtain ⟨x, r, hw, -⟩ := (hws w (by simp)).head
    rw [joined_parts, hw] at h
    cases h
  | cons out outs =>
    rw [joined_parts, joined_parts] at h
    obtain ⟨rfl, rfl⟩ := parts_injective houts hspace h
    rfl

theorem Replaced.no_space (h : Replaced ts outs) : ∀ out ∈ outs, ' ' ∉ out := by
  induction h with
  | done => nofun
  | @secret t _ _ _ _ ih =>
    exact List.forall_mem_cons.2 ⟨fun hmem => absurd ((masked_token t).no_space ' ' hmem) (by decide), ih⟩
  | other _ hspace _ ih => exact List.forall_mem_cons.2 ⟨hspace, ih⟩
  | lost _ _ ih => exact ih

/-- Where no token ends in an authorization, every token is a word of its own. -/
theorem gathered_alone (hts : ∀ t ∈ ts, ¬ Authorizes lib (t.shown lib))
    (h : Gathered lib 0 (ts.map (Token.shown lib)) [] ws) : ws = ts.map (Token.seen lib) := by
  induction ts generalizing ws with
  | nil =>
    cases h
    rfl
  | cons t ts ih =>
    rw [List.forall_mem_cons] at hts
    obtain ⟨ws, rfl, hrest⟩ := h.alone hts.1
    rw [ih hts.2 hrest]
    rfl

theorem quiet_nil : ¬ Announces [] := by decide

/-- Where the sensitive options of closed tokens are hidden, nothing reaches into them. -/
theorem unreached_of_masked {e : Str} (hts : ∀ t ∈ ts, Closed lib t) (he : ¬ Announces e)
    (h : List.Forall₂ (fun t out => t.isSecret → out = t.masked) ts
      (redactedWords lib c c₆ c₇ (ts.map (Token.seen lib)))) : Unreached lib c e ts := by
  induction ts generalizing c c₆ c₇ e with
  | nil => exact .rest nofun
  | cons t ts ih =>
    rw [List.forall_mem_cons] at hts
    have hws : ∀ w ∈ ts.map (Token.seen lib), IsToken w := by
      intro w hw
      obtain ⟨u, -, rfl⟩ := List.mem_map.1 hw
      exact seen_token u
    obtain ⟨c₆', c₇', hcons, -⟩ := @redactedWords_cons lib c c₆ c₇ _ _ (seen_token t) hws
    rw [List.map_cons, hcons] at h
    obtain ⟨hfirst, hrest⟩ := List.forall₂_cons.1 h
    have hfree : t.isSecret → Free lib c e t := by
      intro ht
      exact ⟨(flags_masked_iff ht).1 (option_masked_iff.1 (hfirst ht)).1, he⟩
    by_cases ht : t.value = none
    · rw [seen_switch ht, switch_carry t hws] at hrest
      exact .switch ht (ih hts.2 quiet_nil hrest)
    · have hends : t.isSecret ∨ ¬ Announces t.text ∧
          ((∀ x ∈ t.text, isStop x = false) ∨ ¬ EndsIn isNameChar IsSwitch t.text) := hts.1.ends.resolve_left ht
      rw [option_carry hws ht hfree (hends.imp_right fun h => h.2)] at hrest
      refine .option ht hfree hts.1.unauthorized (hends.imp_right fun h => h.2) (ih hts.2 ?_ hrest)
      split_ifs with hsecret
      · exact quiet_nil
      · exact (hends.resolve_left hsecret).1

theorem commandLine_plain (ts : List Token) : ∀ c ∈ commandLine ts, isOpener c = false := by
  rw [commandLine]
  cases ts with
  | nil => nofun
  | cons t ts =>
    rw [List.map_cons, joined_parts, List.forall_mem_append]
    refine ⟨fun c hc => (t.text_chars c hc).2.2, ?_⟩
    induction ts with
    | nil => nofun
    | cons u ts ih =>
      rw [List.map_cons, partsAfter, List.forall_mem_cons, List.forall_mem_append]
      exact ⟨by decide, fun c hc => (u.text_chars c hc).2.2, ih⟩

end

end BitcoinRpcOperator.Redaction
