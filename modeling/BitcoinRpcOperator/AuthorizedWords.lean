import BitcoinRpcOperator.TokenEnds

/-!
# Authorizations in a command line

The value of an authorization has two words where there are two, so that an authorization at
the end of a token takes the next token, with the space between them.
-/

namespace BitcoinRpcOperator.Redaction
open Text Backtracking PythonValues

/-- An authorization whose value goes up to the end of the text. -/
def IsAuthorization (x : Str) : Prop :=
  Spells "authorization" (x.take 13) ∧ (x.drop 13).head?.any isSep ∧ ∀ c ∈ x.drop 14, isCredentialChar c

/-- A text that ends in an authorization, with the value or before it. -/
def Authorizes (lib : Library) (s : Str) : Prop := EndsIn (isWord lib) IsAuthorization s

def AuthorizesValue (lib : Library) (s : Str) : Prop :=
  EndsIn (isWord lib) (fun x => IsAuthorization x ∧ 14 < x.length) s

instance : DecidablePred IsAuthorization := fun x =>
  inferInstanceAs (Decidable (Spells "authorization" (x.take 13) ∧ _ ∧ _))

instance (lib : Library) : DecidablePred (Authorizes lib) := fun s =>
  inferInstanceAs (Decidable (EndsIn (isWord lib) IsAuthorization s))

instance (lib : Library) : DecidablePred (AuthorizesValue lib) := fun s =>
  inferInstanceAs (Decidable (EndsIn (isWord lib) (fun x => IsAuthorization x ∧ 14 < x.length) s))

section
variable {lib : Library} {s : Str} {ss : List Str}

theorem AuthorizesValue.authorizes (h : AuthorizesValue lib s) : Authorizes lib s := by
  obtain ⟨x, ⟨hx, -⟩, hend⟩ := h
  exact ⟨x, hx, hend⟩

theorem isAuthorization_of {w u : Str} {sep : Char} (hw : Spells "authorization" w) (hsep : isSep sep)
    (hu : ∀ c ∈ u, isCredentialChar c) : IsAuthorization (w ++ sep :: u) := by
  have hlength : w.length = 13 := hw.length_eq.symm
  refine ⟨?_, ?_, ?_⟩
  · rw [List.take_left' hlength]
    exact hw
  · rw [List.drop_left' hlength]
    simpa using hsep
  · have hdrop : (w ++ sep :: u).drop 14 = u := by
      rw [show w ++ sep :: u = (w ++ [sep]) ++ u by simp]
      exact List.drop_left' (by simp [hlength])
    rw [hdrop]
    exact hu

theorem IsAuthorization.split {x : Str} (h : IsAuthorization x) : ∃ w sep u, x = w ++ sep :: u ∧
    Spells "authorization" w ∧ isSep sep ∧ ∀ c ∈ u, isCredentialChar c := by
  obtain ⟨hw, hsep, hu⟩ := h
  cases hdrop : x.drop 13 with
  | nil => simp [hdrop] at hsep
  | cons sep u =>
    have hx := List.take_append_drop 13 x
    rw [hdrop] at hx hsep
    refine ⟨x.take 13, sep, u, hx.symm, hw, by simpa using hsep, ?_⟩
    have hrest : x.drop 14 = u := by
      rw [show 14 = 13 + 1 from rfl, ← List.drop_drop, hdrop]
      rfl
    rwa [hrest] at hu

theorem isWord_of_spells {w : Str} (hw : Spells "authorization" w) : w.head?.any (isWord lib) := by
  have hletter : ∀ c, letter 'a' c → isWord lib c := by
    intro c hc
    have hlower : c.toLower = 'a' := by simpa [letter] using hc
    unfold Char.toLower at hlower
    split_ifs at hlower with hupper
    · have hup : c.isUpper := by simpa [Char.isUpper] using hupper
      simp [isWord, Char.isAlphanum, Char.isAlpha, hup]
    · subst hlower
      rfl
  cases hw with
  | cons hx _ => exact hletter _ hx

/-- An authorization that reaches over the end of a token. -/
theorem authorization_crosses {passed a : Str} {d : Cursor} (hs : ∀ c ∈ s, isSpace c = false)
    (hquote : ∀ c ∈ s, isQuote c = false) (hss : ∀ t ∈ ss, IsToken t)
    (h : matchAt (authorizationPattern lib) ⟨passed, s ++ partsAfter ' ' ss, []⟩ = some d)
    (hsplit : s ++ partsAfter ' ' ss = a ++ d.rest) (hless : d.rest.length < (partsAfter ' ' ss).length) :
    ∃ w sep u t ss', s = w ++ sep :: u ∧ Spells "authorization" w ∧ isSep sep ∧ (∀ c ∈ u, isCredentialChar c) ∧
      passed.head?.any (isWord lib) = false ∧ ss = t :: ss' ∧
      (u ≠ [] ∧ a = s ++ ' ' :: t.takeWhile isCredentialChar ∧ d.captured 1 = w ++ [sep] ∨
        u = [] ∧ d.captured 1 = s ++ [' '] ∧
          (a = s ++ ' ' :: t.takeWhile isCredentialChar ∧ (ss' = [] ∨ ¬ ∀ c ∈ t, isCredentialChar c) ∨
            (∀ c ∈ t, isCredentialChar c) ∧ ∃ t' ss'', ss' = t' :: ss'' ∧
              a = s ++ ' ' :: (t ++ ' ' :: t'.takeWhile isCredentialChar))) := by
  have hspace := space_of_cross hsplit hless
  obtain ⟨w, gap, sep, gap', u, more, hw, hgap, hsep, hgap', hne, hu, hmore, hgreedy, htail, hboundary, hmoved, h₁⟩ :=
    authorizationPattern_match (quotes_of_parts hquote hss) h
  have ha : a = w ++ gap ++ sep :: gap' ++ (u ++ more) :=
    List.append_cancel_right (hsplit.symm.trans hmoved.1)
  subst ha
  have hnames := spells_isNameChar (by decide) hw
  obtain rfl : gap = [] := gap_before_sep (x := sep) hs hss (names_no_space hnames) hgap hsep (by
    rw [hsplit]
    simp only [List.append_assoc, List.cons_append]
    rfl)
  have hbehind : passed.head?.any (isWord lib) = false := by
    have hfirst : (s ++ partsAfter ' ' ss).head?.any (isWord lib) := by
      have hword := @isWord_of_spells lib w hw
      obtain ⟨x, w, rfl⟩ : ∃ x r, w = x :: r := by
        cases w with
        | nil => cases hword
        | cons x r => exact ⟨x, r, rfl⟩
      rw [hsplit]
      exact hword
    rw [hfirst] at hboundary
    simpa using hboundary
  have hsepSpace : isSpace sep = false := by rcases isSep_cases hsep with rfl | rfl <;> decide
  by_cases hgap'ne : gap' = []
  · subst hgap'ne
    -- The space is the one before the second word.
    have hfront : ∀ c ∈ w ++ sep :: u, isSpace c = false := by
      rw [List.forall_mem_append, List.forall_mem_cons]
      exact ⟨names_no_space hnames, hsepSpace, credential_no_space hu⟩
    rcases hmore with rfl | ⟨gap'', u', rfl, hne'', hgap'', -, hu'⟩
    · exact absurd (hfront ' ' (by simpa using hspace)) (by decide)
    · obtain ⟨rfl, rfl, t, ss', rfl, rfl⟩ := cross_shape (p := isCredentialChar) (by decide) hs hss hfront hne''
        hgap'' hu' htail (by rw [hsplit]; simp)
      exact ⟨w, sep, u, t, ss', rfl, hw, hsep, hu, hbehind, rfl, .inl ⟨hne, by simp, by simpa using h₁⟩⟩
  · have hfront : ∀ c ∈ w ++ [sep], isSpace c = false := by
      rw [List.forall_mem_append, List.forall_mem_singleton]
      exact ⟨names_no_space hnames, hsepSpace⟩
    have hrest : (more ++ d.rest).head?.any isCredentialChar = false := by
      rcases hmore with rfl | ⟨gap'', u', rfl, hne'', hgap'', -⟩
      · exact htail
      · obtain ⟨x, gap'', rfl⟩ := List.exists_cons_of_ne_nil hne''
        have hx := hgap'' x (by simp)
        simp [isCredentialChar, hx]
    obtain ⟨rfl, rfl, t, ss', rfl, rfl⟩ := cross_shape (p := isCredentialChar) (by decide) hs hss hfront hgap'ne
      hgap' hu hrest (by rw [hsplit]; simp)
    refine ⟨w, sep, [], t, ss', rfl, hw, hsep, List.forall_mem_nil _, hbehind, rfl,
      .inr ⟨rfl, by rw [h₁]; simp, ?_⟩⟩
    have htext : t ++ partsAfter ' ' ss' = t.takeWhile isCredentialChar ++ (more ++ d.rest) := by
      have hwhole : (w ++ [sep]) ++ ' ' :: (t ++ partsAfter ' ' ss') =
          (w ++ [sep]) ++ ' ' :: (t.takeWhile isCredentialChar ++ (more ++ d.rest)) := by
        rw [partsAfter] at hsplit
        rw [hsplit]
        simp
      exact (List.cons.inj (List.append_cancel_left hwhole)).2
    rcases hmore with rfl | ⟨gap'', u', rfl, hne'', hgap'', -, hu'⟩
    · refine .inl ⟨by simp, ?_⟩
      by_contra hnot
      rw [not_or, not_not] at hnot
      obtain ⟨hmoreTokens, hall⟩ := hnot
      obtain ⟨t', ss'', rfl⟩ := List.exists_cons_of_ne_nil hmoreTokens
      obtain ⟨x, r, ht', hx⟩ := (hss t' (by simp)).head
      rw [List.takeWhile_eq_self_iff.2 hall, List.nil_append] at htext
      have hd := (List.append_cancel_left htext).symm
      rw [partsAfter, ht', List.cons_append] at hd
      have hnext := hgreedy rfl ' ' x _ hd (by decide)
      rcases hx with rfl | rfl <;> exact absurd hnext (by decide)
    · have ht : ∀ c ∈ t, isSpace c = false := (hss t (by simp)).no_space
      have hss' : ∀ x ∈ ss', IsToken x := fun x hx => hss x (by simp [hx])
      have htaken : ∀ c ∈ t.takeWhile isCredentialChar, isSpace c = false :=
        fun c hc => ht c ((List.takeWhile_prefix _).subset hc)
      obtain ⟨hall, rfl, t', ss'', rfl, rfl⟩ := cross_shape (p := isCredentialChar) (by decide) ht hss'
        htaken hne'' hgap'' hu' htail (by rw [htext]; simp)
      refine .inr ⟨fun c hc => ?_, t', ss'', rfl, ?_⟩
      · rw [hall] at hc
        exact List.mem_takeWhile_imp hc
      · rw [← hall]
        simp

/-- An authorization with a value is found. -/
theorem authorization_found {passed w u rest : Str} {sep : Char} (hw : Spells "authorization" w) (hsep : isSep sep)
    (hne : u ≠ []) (hu : ∀ c ∈ u, isCredentialChar c) (hbehind : passed.head?.any (isWord lib) = false) :
    ∃ d, matchAt (authorizationPattern lib) ⟨passed, w ++ sep :: (u ++ rest), []⟩ = some d := by
  have hboundary : passed.head?.any (isWord lib) ≠ (w ++ sep :: (u ++ rest)).head?.any (isWord lib) := by
    have hfirst := @isWord_of_spells lib w hw
    obtain ⟨x, w, rfl⟩ : ∃ x r, w = x :: r := by
      cases w with
      | nil => cases hfirst
      | cons x r => exact ⟨x, r, rfl⟩
    have hword : (x :: w ++ sep :: (u ++ rest)).head?.any (isWord lib) = true := hfirst
    rw [hbehind, hword]
    simp
  obtain ⟨d, hd⟩ : ∃ d, Matches (authorizationPattern lib) ⟨passed, w ++ sep :: (u ++ rest), []⟩ d := by
    refine ⟨_, _, ⟨_, ⟨_, ⟨hboundary, rfl⟩, _, matches_word_run hw _ _ _, _, .refl, _, ⟨sep, _, rfl, hsep, rfl⟩, _,
      .refl, rfl⟩, rfl⟩, _, .inr (.inr ⟨_, matches_plus_run hne hu _ _ _, .inr rfl⟩), rfl⟩
  exact matchAt_isSome rfl hd

/-- Alone, the value of an authorization at the end of a text is hidden. -/
theorem authorization_alone {passed w u : Str} {sep : Char} (hw : Spells "authorization" w) (hsep : isSep sep)
    (hne : u ≠ []) (hu : ∀ c ∈ u, isCredentialChar c) (hbehind : passed.head?.any (isWord lib) = false)
    (hquote : ∀ c ∈ w ++ sep :: u, isQuote c = false) :
    Substitutes (authorizationPattern lib) (authorizationPass lib).replace passed (w ++ sep :: u)
      (w ++ sep :: redacted) := by
  obtain ⟨d, hd⟩ := @authorization_found lib passed w u [] sep hw hsep hne hu hbehind
  rw [List.append_nil] at hd
  obtain ⟨w', gap, sep', gap', u', more, hw', hgap, hsep', hgap', -, -, hmore, -, htail, -, hmoved, h₁⟩ :=
    authorizationPattern_match hquote hd
  have hsplit : w ++ sep :: u = w' ++ (gap ++ sep' :: gap' ++ (u' ++ more) ++ d.rest) := by
    have hrest : w ++ sep :: u = _ := hmoved.1
    rw [hrest]
    simp
  obtain ⟨rfl, hvalue⟩ := List.append_inj hsplit (hw.length_eq.symm.trans hw'.length_eq)
  have hsepSpace : isSpace sep = false := by rcases isSep_cases hsep with rfl | rfl <;> decide
  obtain rfl : gap = [] := by
    cases gap with
    | nil => rfl
    | cons x gap =>
      obtain ⟨rfl, -⟩ := List.cons.inj hvalue
      rw [hgap sep (by simp)] at hsepSpace
      cases hsepSpace
  obtain ⟨rfl, huText⟩ := List.cons.inj hvalue
  have hspace := credential_no_space hu
  obtain rfl : gap' = [] := by
    cases gap' with
    | nil => rfl
    | cons x gap' =>
      have hx := hspace x (by simp [huText])
      rw [hgap' x (by simp)] at hx
      cases hx
  obtain rfl : more = [] := by
    rcases hmore with rfl | ⟨gap'', u'', rfl, hne'', hgap'', -⟩
    · rfl
    · obtain ⟨x, gap'', rfl⟩ := List.exists_cons_of_ne_nil hne''
      have hx := hspace x (by simp [huText])
      rw [hgap'' x (by simp)] at hx
      cases hx
  have hend : d.rest = [] := by
    cases hrest : d.rest with
    | nil => rfl
    | cons x r =>
      have hx := hu x (by simp [huText, hrest])
      simp [hrest, hx] at htail
  have hreplace : (authorizationPass lib).replace (w ++ sep :: u) d = w ++ sep :: redacted := by
    simp [authorizationPass, h₁]
  have hhit := Substitutes.hit (f := (authorizationPass lib).replace) (s := []) (a := w ++ sep :: u)
    (by rw [List.append_nil]; exact hd) (by simp) hend
    (.done ((advances_of_consumes rfl : Advances (authorizationPattern lib)).at_end _))
  rw [List.append_nil, List.append_nil, hreplace] at hhit
  exact hhit

theorem authorization_credential {w u : Str} {sep : Char} (hw : Spells "authorization" w) (hsep : isSep sep)
    (hu : ∀ c ∈ u, isCredentialChar c) : ∀ c ∈ w ++ sep :: u, isCredentialChar c := by
  rw [List.forall_mem_append, List.forall_mem_cons]
  refine ⟨fun c hc => ?_, (isKeyChar_value (by simp [isKeyChar, hsep])).2.2.2, hu⟩
  have hname := spells_isNameChar (by decide) hw c hc
  exact (isKeyChar_value (by simp [isKeyChar, hname])).2.2.2

/-- Where a token ends in an authorization with its value, the substitution reaches over its end
with this value. -/
theorem value_crosses {behind front s out f w u : Str} {sep : Char} {m : Option (Str × Cursor)}
    (h : Pass.Course (authorizationPass lib) ' ' behind ss front s out m) (hs : ∀ c ∈ s, isSpace c = false)
    (hquote : ∀ c ∈ s, isQuote c = false) (hss : ∀ t ∈ ss, IsToken t) (hne : ss ≠ [])
    (hsplit : s = f ++ (w ++ sep :: u)) (hw : Spells "authorization" w) (hsep : isSep sep) (hune : u ≠ [])
    (hu : ∀ c ∈ u, isCredentialChar c) (hbehind : (f.reverse ++ front.reverse).head?.any (isWord lib) = false) :
    ∃ a d, m = some (a, d) ∧ ' ' ∉ d.captured 1 := by
  have hchars := authorization_credential hw hsep hu
  induction h generalizing f with
  | done => simp at hsplit
  | @skip front s out x m hnone _ ih =>
    cases f with
    | nil =>
      obtain ⟨d, hd⟩ := @authorization_found lib front.reverse w u [] sep hw hsep hune hu hbehind
      rw [List.append_nil, ← List.nil_append (w ++ sep :: u), ← hsplit] at hd
      rw [show matchAt (authorizationPattern lib) _ = none from hnone] at hd
      cases hd
    | cons y f =>
      obtain ⟨rfl, rfl⟩ := List.cons.inj hsplit
      rw [List.forall_mem_cons] at hs hquote
      exact ih hs.2 hquote.2 rfl (by simpa using hbehind)
  | @inside front a s out d e m _ hane _ hwhole he _ ih =>
    rcases List.append_eq_append_iff.1 hsplit with ⟨r, rfl, rfl⟩ | ⟨r, rfl, htail⟩
    · rw [List.forall_mem_append] at hs hquote
      exact ih hs.2 hquote.2 rfl (by simpa using hbehind)
    · -- A match that takes the beginning of the authorization takes all of it and the next token.
      exfalso
      obtain ⟨w', gap, sep', gap', u', more, -, -, -, -, -, -, hmore, hgreedy, hend, -, hmoved, -⟩ :=
        authorizationPattern_match (quotes_of_parts hquote hss) hwhole
      rw [he] at hgreedy hend
      obtain rfl : s = [] := by
        cases s with
        | nil => rfl
        | cons y s =>
          have hy := hchars y (by rw [htail]; simp)
          simp [hy] at hend
      obtain ⟨t, ss', rfl⟩ := List.exists_cons_of_ne_nil hne
      rcases hmore with rfl | ⟨gap'', u'', rfl, hne'', hgap'', -⟩
      · obtain ⟨y, r', ht, hy⟩ := (hss t (by simp)).head
        have hnext := hgreedy rfl ' ' y (r' ++ partsAfter ' ' ss') (by rw [partsAfter, ht]; rfl) (by decide)
        rcases hy with rfl | rfl <;> exact absurd hnext (by decide)
      · obtain ⟨y, gap'', rfl⟩ := List.exists_cons_of_ne_nil hne''
        have hwhole : f ++ r ++ [] ++ partsAfter ' ' (t :: ss') = _ := hmoved.1
        rw [he, List.append_nil] at hwhole
        have ha := List.append_cancel_right hwhole
        have hy := hs y (by rw [ha]; simp)
        rw [hgap'' y (by simp)] at hy
        cases hy
  | @crosses front s a out d hsome hcut hless _ =>
    refine ⟨a, d, rfl, ?_⟩
    obtain ⟨w', sep', u', t, ss', rfl, hw', hsep', -, -, rfl, ⟨-, -, h₁⟩ | ⟨rfl, -⟩⟩ :=
      authorization_crosses hs hquote hss hsome hcut hless
    · rw [h₁]
      intro hmem
      have hmem' : ' ' ∈ w' ++ sep' :: u' := by
        rw [List.mem_append, List.mem_cons]
        rcases List.mem_append.1 hmem with hmem | hmem
        · exact .inl hmem
        · exact .inr (.inl (List.mem_singleton.1 hmem))
      exact absurd (hs ' ' hmem') (by decide)
    · have hnames := spells_isNameChar (by decide) hw'
      exact absurd (sep_last (fun c hc => (isNameChar_cases (hnames c hc)).2.1) hsep
        (by rw [List.append_assoc]; exact hsplit)) hune

/-- What an authorization that has taken the beginning of a token leaves of it. -/
def leftOver (lib : Library) (s : Str) : Str :=
  subFrom (authorizationPattern lib) (authorizationPass lib).replace (s.takeWhile isCredentialChar).reverse
    (s.dropWhile isCredentialChar)

/-- The words that the substitution for authorizations makes of some tokens, where one of them
still takes `k` words: what it adds to the word before, and the further ones. -/
inductive Gathered (lib : Library) : ℕ → List Str → Str → List Str → Prop
  | done {k : ℕ} : Gathered lib k [] [] []
  | word {k : ℕ} {s g : Str} {ss ws : List Str} : (k ≠ 0 → Authorizes lib s) →
      (k = 1 → AuthorizesValue lib s ∧ MaskedEnd (redactAuthorization lib s)) → (AuthorizesValue lib s →
      ss ≠ [] → k = 1) → Gathered lib k ss g ws → Gathered lib 0 (s :: ss) [] ((redactAuthorization lib s ++ g) :: ws)
  | taken {s : Str} {ss ws : List Str} : (∀ c ∈ s, isCredentialChar c) → Gathered lib 0 ss [] ws →
      Gathered lib 1 (s :: ss) [] ws
  | partly {k : ℕ} {s g : Str} {ss ws : List Str} : (¬ ∀ c ∈ s, isCredentialChar c) → Gathered lib k ss g ws →
      Gathered lib 1 (s :: ss) (leftOver lib s ++ g) ws
  | hidden {s g : Str} {ss ws : List Str} : (∀ c ∈ s, isCredentialChar c) → Gathered lib 1 ss g ws →
      Gathered lib 2 (s :: ss) [] ((redacted ++ g) :: ws)
  | partlyHidden {k : ℕ} {s g : Str} {ss ws : List Str} : (¬ ∀ c ∈ s, isCredentialChar c) → Gathered lib k ss g ws →
      Gathered lib 2 (s :: ss) [] ((redacted ++ (leftOver lib s ++ g)) :: ws)

theorem authorizes_of {front w u : Str} {sep : Char} (hw : Spells "authorization" w) (hsep : isSep sep)
    (hu : ∀ c ∈ u, isCredentialChar c) (hfront : front.reverse.head?.any (isWord lib) = false) :
    Authorizes lib (front ++ (w ++ sep :: u)) ∧ (u ≠ [] → AuthorizesValue lib (front ++ (w ++ sep :: u))) := by
  have hend : AtEnd (isWord lib) (w ++ sep :: u) (front ++ (w ++ sep :: u)) := ⟨front, rfl, by simpa using hfront⟩
  refine ⟨⟨_, isAuthorization_of hw hsep hu, hend⟩, fun hne => ⟨_, ⟨isAuthorization_of hw hsep hu, ?_⟩, hend⟩⟩
  have hlength : w.length = 13 := hw.length_eq.symm
  have hpos := List.length_pos_iff.2 hne
  simp only [List.length_append, List.length_cons]
  omega

/-- What the substitution for authorizations does from a token on. -/
inductive Goes (lib : Library) (front s : Str) (ss : List Str) (o out : Str) : Prop
  | stays {passed o' : Str} : Substitutes (authorizationPattern lib) (authorizationPass lib).replace passed
        (partsAfter ' ' ss) o' → out = o ++ o' →
      (front = [] → AuthorizesValue lib s → ss = []) → Goes lib front s ss o out
  | takes {t behind o' : Str} {ss' : List Str} : ss = t :: ss' → Outside ' ' behind →
      Substitutes (authorizationPattern lib) (authorizationPass lib).replace
        ((t.takeWhile isCredentialChar).reverse ++ behind) (t.dropWhile isCredentialChar ++ partsAfter ' ' ss') o' →
      out = o ++ o' → AuthorizesValue lib (front ++ s) → MaskedEnd o → Goes lib front s ss o out
  | hides {t behind o' : Str} {ss' : List Str} : ss = t :: ss' → Outside ' ' behind →
      Substitutes (authorizationPattern lib) (authorizationPass lib).replace
        ((t.takeWhile isCredentialChar).reverse ++ behind) (t.dropWhile isCredentialChar ++ partsAfter ' ' ss') o' →
      out = o ++ ' ' :: (redacted ++ o') → Authorizes lib (front ++ s) →
      (front = [] → ¬ AuthorizesValue lib s) → (ss' = [] ∨ ¬ ∀ c ∈ t, isCredentialChar c) → Goes lib front s ss o out
  | hidesTakes {t t' behind o' : Str} {ss' : List Str} : ss = t :: t' :: ss' → (∀ c ∈ t, isCredentialChar c) →
      Outside ' ' behind → Substitutes (authorizationPattern lib) (authorizationPass lib).replace
        ((t'.takeWhile isCredentialChar).reverse ++ behind) (t'.dropWhile isCredentialChar ++ partsAfter ' ' ss') o' →
      out = o ++ ' ' :: (redacted ++ o') → Authorizes lib (front ++ s) →
      (front = [] → ¬ AuthorizesValue lib s) → Goes lib front s ss o out

theorem authorization_goes {behind front out : Str} (hbehind : Outside ' ' behind) (hs : IsToken (front ++ s))
    (hss : ∀ t ∈ ss, IsToken t)
    (h : Substitutes (authorizationPattern lib) (authorizationPass lib).replace (front.reverse ++ behind)
      (s ++ partsAfter ' ' ss) out) :
    ∃ o, Substitutes (authorizationPattern lib) (authorizationPass lib).replace front.reverse s o ∧
      Goes lib front s ss o out := by
  have hspace : ∀ c ∈ s, isSpace c = false := fun c hc => hs.no_space c (by simp [hc])
  have hquote : ∀ c ∈ s, isQuote c = false := fun c hc => (hs.chars c (by simp [hc])).2
  have hcourse := (@authorizationPass_parted lib).course hbehind h rfl rfl (Nat.lt_succ_self _)
  have hvalue : front = [] → AuthorizesValue lib s → ss ≠ [] → ∃ a d,
      (authorizationPass lib).reachFuel (partsAfter ' ' ss) (s.length + 1) front.reverse s = some (a, d) ∧
        ' ' ∉ d.captured 1 := by
    rintro rfl ⟨x, ⟨hx, hlength⟩, f, rfl, hf⟩ hne
    obtain ⟨w, sep, u, rfl, hw, hsep, hu⟩ := hx.split
    have hune : u ≠ [] := by
      rintro rfl
      have hthirteen : w.length = 13 := hw.length_eq.symm
      simp [hthirteen] at hlength
    exact value_crosses hcourse hspace hquote hss hne rfl hw hsep hune hu (by simpa using hf)
  cases hm : (authorizationPass lib).reachFuel (partsAfter ' ' ss) (s.length + 1) front.reverse s with
  | none =>
    obtain ⟨o, o', halone, hrest, rfl⟩ := hcourse.stays authorizationPass_parted hm
    refine ⟨o, halone, .stays hrest rfl fun hfront hs => ?_⟩
    by_contra hne
    obtain ⟨a, d, hsome, -⟩ := hvalue hfront hs hne
    rw [hm] at hsome
    cases hsome
  | some m =>
    obtain ⟨a, d⟩ := m
    obtain ⟨s₁, s₂, o, o', rfl, hsome, hsplit, hless, halone, hrest, rfl⟩ := hcourse.crossed hm
    have hspace₂ : ∀ c ∈ s₂, isSpace c = false := fun c hc => hspace c (by simp [hc])
    have hquote₂ : ∀ c ∈ s₂, isQuote c = false := fun c hc => hquote c (by simp [hc])
    obtain ⟨w, sep, u, t, ss', rfl, hw, hsep, hu, hword, rfl, hkind⟩ :=
      authorization_crosses hspace₂ hquote₂ hss hsome hsplit hless
    have hauthorizes := authorizes_of hw hsep hu hword
    rw [List.append_assoc] at hauthorizes
    have hnot : u = [] → d.captured 1 = w ++ sep :: u ++ [' '] → front = [] →
        ¬ AuthorizesValue lib (s₁ ++ (w ++ sep :: u)) := by
      intro _ h₁ hfront hs
      obtain ⟨a', d', hsome', hnone⟩ := hvalue hfront hs (List.cons_ne_nil _ _)
      obtain ⟨-, rfl⟩ := Prod.mk.inj (Option.some.inj (hm.symm.trans hsome'))
      exact hnone (by rw [h₁]; simp)
    rcases hkind with ⟨hne, rfl, h₁⟩ | ⟨rfl, h₁, ⟨rfl, hend⟩ | ⟨hall, t', ss'', rfl, rfl⟩⟩
    · have hd := Pass.rest_of_taken hsplit
      have hpassed : (w ++ sep :: u ++ ' ' :: t.takeWhile isCredentialChar).reverse ++
            ((front ++ s₁).reverse ++ behind) =
          (t.takeWhile isCredentialChar).reverse ++
            ' ' :: ((front ++ (s₁ ++ (w ++ sep :: u))).reverse ++ behind) := by
        simp
      rw [hd, hpassed] at hrest
      refine ⟨_, halone _ (authorization_alone hw hsep hne hu hword hquote₂), .takes rfl (.inr ⟨_, rfl⟩) hrest ?_
        (hauthorizes.2 hne) ⟨o ++ w, sep, isMark_sep hsep, by simp⟩⟩
      simp [authorizationPass, h₁]
    · have hd := Pass.rest_of_taken hsplit
      have hpassed : (w ++ [sep] ++ ' ' :: t.takeWhile isCredentialChar).reverse ++
            ((front ++ s₁).reverse ++ behind) =
          (t.takeWhile isCredentialChar).reverse ++ ' ' :: ((front ++ (s₁ ++ (w ++ [sep]))).reverse ++ behind) := by
        simp
      rw [hd, hpassed] at hrest
      have hnames := spells_isNameChar (by decide) hw
      refine ⟨_, halone _ (authorization_not_in_key (fun c hc => (isNameChar_cases (hnames c hc)).2.1) hquote₂ _),
        .hides rfl (.inr ⟨_, rfl⟩) hrest ?_ hauthorizes.1 (hnot rfl h₁) hend⟩
      simp [authorizationPass, h₁]
    · have hsecond : (w ++ [sep] ++ ' ' :: t) ++ partsAfter ' ' (t' :: ss'') =
          (w ++ [sep] ++ ' ' :: t) ++ ' ' :: t'.takeWhile isCredentialChar ++ d.rest := by
        rw [partsAfter] at hsplit
        simpa using hsplit
      have hd := Pass.rest_of_taken hsecond
      have hpassed : (w ++ [sep] ++ ' ' :: (t ++ ' ' :: t'.takeWhile isCredentialChar)).reverse ++
            ((front ++ s₁).reverse ++ behind) =
          (t'.takeWhile isCredentialChar).reverse ++
            ' ' :: (t.reverse ++ ' ' :: ((front ++ (s₁ ++ (w ++ [sep]))).reverse ++ behind)) := by
        simp
      rw [hd, hpassed] at hrest
      have hnames := spells_isNameChar (by decide) hw
      refine ⟨_, halone _ (authorization_not_in_key (fun c hc => (isNameChar_cases (hnames c hc)).2.1) hquote₂ _),
        .hidesTakes rfl hall (.inr ⟨_, rfl⟩) hrest ?_ hauthorizes.1 (hnot rfl h₁)⟩
      simp [authorizationPass, h₁]

/-- From the rest of a token on, the substitution for authorizations makes words of the tokens
behind it. -/
def Gathers (lib : Library) (ss : List Str) : Prop :=
  ∀ behind front s out : Str, Outside ' ' behind → IsToken (front ++ s) →
    Substitutes (authorizationPattern lib) (authorizationPass lib).replace (front.reverse ++ behind)
      (s ++ partsAfter ' ' ss) out →
    ∃ k o g ws, Substitutes (authorizationPattern lib) (authorizationPass lib).replace front.reverse s o ∧
      out = o ++ (g ++ partsAfter ' ' ws) ∧ Gathered lib k ss g ws ∧ (k ≠ 0 → Authorizes lib (front ++ s)) ∧
      (k = 1 → AuthorizesValue lib (front ++ s) ∧ MaskedEnd o) ∧
      (front = [] → AuthorizesValue lib s → ss ≠ [] → k = 1)

/-- The words of tokens that nothing reaches into. -/
theorem gathered_fresh {passed out : Str} (hss : ∀ t ∈ ss, IsToken t)
    (ih : ∀ t ss', ss = t :: ss' → Gathers lib ss')
    (h : Substitutes (authorizationPattern lib) (authorizationPass lib).replace passed (partsAfter ' ' ss) out) :
    ∃ ws, out = partsAfter ' ' ws ∧ Gathered lib 0 ss [] ws := by
  cases ss with
  | nil => exact ⟨[], Pass.substitutes_nil (p := authorizationPass lib) h, .done⟩
  | cons t ss =>
    obtain ⟨out, hrest, rfl⟩ := (@authorizationPass_parted lib).over_separator h
    obtain ⟨k, o, g, ws, hfirst, rfl, hgathered, hk, hvalue, honly⟩ :=
      ih t ss rfl (' ' :: passed) [] t out (.inr ⟨passed, rfl⟩) (hss t (by simp)) hrest
    have ho : redactAuthorization lib t = o := hfirst.sub_eq
    refine ⟨(redactAuthorization lib t ++ g) :: ws, ?_, .word hk (by rw [ho]; exact hvalue) (honly rfl) hgathered⟩
    rw [ho, partsAfter, List.append_assoc]

/-- The words of tokens into the first of which an authorization reaches. -/
theorem gathered_next {behind t out : Str} (hbehind : Outside ' ' behind) (ht : IsToken t)
    (hss : ∀ t ∈ ss, IsToken t) (ih : Gathers lib ss) (ih' : ∀ t ss', ss = t :: ss' → Gathers lib ss')
    (h : Substitutes (authorizationPattern lib) (authorizationPass lib).replace
      ((t.takeWhile isCredentialChar).reverse ++ behind) (t.dropWhile isCredentialChar ++ partsAfter ' ' ss) out) :
    ∃ g ws, out = g ++ partsAfter ' ' ws ∧ Gathered lib 1 (t :: ss) g ws := by
  by_cases hall : ∀ c ∈ t, isCredentialChar c
  · rw [List.dropWhile_eq_nil_iff.2 hall, List.nil_append] at h
    obtain ⟨ws, rfl, hgathered⟩ := gathered_fresh hss ih' h
    exact ⟨[], ws, rfl, .taken hall hgathered⟩
  · obtain ⟨k, o, g, ws, hfirst, rfl, hgathered, -⟩ := ih _ _ _ _ hbehind (by rwa [List.takeWhile_append_dropWhile]) h
    have ho : leftOver lib t = o := hfirst.subFuel_eq _ (Nat.lt_succ_self _)
    refine ⟨leftOver lib t ++ g, ws, ?_, .partly hall hgathered⟩
    rw [ho, List.append_assoc]

theorem gathers (n : ℕ) : ∀ {ss : List Str}, ss.length < n → (∀ t ∈ ss, IsToken t) → Gathers lib ss := by
  induction n with
  | zero => exact fun h => absurd h (Nat.not_lt_zero _)
  | succ n ih =>
    intro ss hn hss behind front s out hbehind hs h
    have hnext : ∀ {t : Str} {ss' : List Str}, ss = t :: ss' → Gathers lib ss' := by
      rintro t ss' rfl
      rw [List.length_cons] at hn
      exact ih (by omega) fun x hx => hss x (by simp [hx])
    obtain ⟨o, halone, hgoes⟩ := authorization_goes hbehind hs hss h
    cases hgoes with
    | stays hrest hout honly =>
      obtain ⟨ws, rfl, hgathered⟩ := gathered_fresh hss (fun _ _ hcons => hnext hcons) hrest
      refine ⟨0, o, [], ws, halone, hout, hgathered, fun h => absurd rfl h, nofun, fun hfront hs hne => ?_⟩
      exact absurd (honly hfront hs) hne
    | @takes t _ _ ss' hcons hbehind' hrest hout hvalue hmasked =>
      subst hcons
      rw [List.length_cons] at hn
      rw [List.forall_mem_cons] at hss
      obtain ⟨g, ws, rfl, hgathered⟩ := gathered_next hbehind' hss.1 hss.2 (hnext rfl) (by
        rintro t' ss' rfl
        rw [List.length_cons] at hn
        exact ih (by omega) fun x hx => hss.2 x (by simp [hx])) hrest
      exact ⟨1, o, g, ws, halone, hout, hgathered, fun _ => hvalue.authorizes,
        fun _ => ⟨hvalue, hmasked⟩, fun _ _ _ => rfl⟩
    | @hides t _ _ ss' hcons hbehind' hrest hout hauthorizes hnot hend =>
      subst hcons
      by_cases hall : ∀ c ∈ t, isCredentialChar c
      · obtain rfl : ss' = [] := hend.resolve_right (not_not_intro hall)
        rw [List.dropWhile_eq_nil_iff.2 hall] at hrest
        rw [Pass.substitutes_nil (p := authorizationPass lib) hrest] at hout
        refine ⟨2, o, [], [redacted ++ []], halone, ?_, .hidden hall .done, fun _ => hauthorizes, nofun,
          fun hfront hs => absurd hs (hnot hfront)⟩
        rw [hout, partsAfter, partsAfter, List.append_nil, List.append_nil, List.nil_append]
      · obtain ⟨k, o', g, ws, hfirst, rfl, hgathered, -⟩ := hnext rfl _ _ _ _ hbehind'
          (by rw [List.takeWhile_append_dropWhile]; exact hss t (by simp)) hrest
        have ho : leftOver lib t = o' := hfirst.subFuel_eq _ (Nat.lt_succ_self _)
        refine ⟨2, o, [], (redacted ++ (leftOver lib t ++ g)) :: ws, halone, ?_, .partlyHidden hall hgathered,
          fun _ => hauthorizes, nofun, fun hfront hs => absurd hs (hnot hfront)⟩
        rw [hout, ho, partsAfter]
        simp
    | @hidesTakes t t' _ _ ss' hcons hall hbehind' hrest hout hauthorizes hnot =>
      subst hcons
      simp only [List.length_cons] at hn
      simp only [List.forall_mem_cons] at hss
      obtain ⟨g, ws, rfl, hgathered⟩ := gathered_next hbehind' hss.2.1 hss.2.2
        (ih (by omega) hss.2.2) (by
          rintro t' ss' rfl
          rw [List.length_cons] at hn
          exact ih (by omega) fun x hx => hss.2.2 x (by simp [hx])) hrest
      refine ⟨2, o, [], (redacted ++ g) :: ws, halone, ?_, .hidden hall hgathered, fun _ => hauthorizes, nofun,
        fun hfront hs => absurd hs (hnot hfront)⟩
      rw [hout, partsAfter, List.append_assoc, List.nil_append]

/-- What the substitution for authorizations makes of a command line. -/
theorem redactAuthorization_line (hss : ∀ t ∈ ss, IsToken t) :
    ∃ ws, redactAuthorization lib (joined [' '] ss) = joined [' '] ws ∧ Gathered lib 0 ss [] ws := by
  have hadvances : Advances (authorizationPattern lib) := advances_of_consumes rfl
  cases ss with
  | nil => exact ⟨[], (Substitutes.done (hadvances.at_end _)).sub_eq, .done⟩
  | cons s ss =>
    rw [List.forall_mem_cons] at hss
    have hsub := substitutes_subFrom hadvances (authorizationPass lib).replace [] (s ++ partsAfter ' ' ss)
    obtain ⟨k, o, g, ws, hfirst, hout, hgathered, hk, hvalue, honly⟩ :=
      gathers (ss.length + 1) (Nat.lt_succ_self _) hss.2 [] [] s _ (.inl rfl) hss.1 hsub
    have ho : redactAuthorization lib s = o := hfirst.sub_eq
    refine ⟨(redactAuthorization lib s ++ g) :: ws, ?_, .word hk (by rw [ho]; exact hvalue) (honly rfl) hgathered⟩
    rw [joined_parts, joined_parts, ho, List.append_assoc]
    exact hout

namespace Gathered
variable {k : ℕ} {g : Str} {ws : List Str}

theorem length_le (h : Gathered lib k ss g ws) : ws.length ≤ ss.length := by
  induction h with
  | done => exact le_rfl
  | word _ _ _ _ ih => exact Nat.succ_le_succ ih
  | taken _ _ ih => exact ih.trans (Nat.le_succ _)
  | partly _ _ ih => exact ih.trans (Nat.le_succ _)
  | hidden _ _ ih => exact Nat.succ_le_succ ih
  | partlyHidden _ _ ih => exact Nat.succ_le_succ ih

theorem nothing_added (h : Gathered lib 0 ss g ws) : g = [] := by
  cases h <;> rfl

/-- A token that does not end in an authorization is a word of its own. -/
theorem alone (h : Gathered lib 0 (s :: ss) g ws) (hs : ¬ Authorizes lib s) :
    ∃ ws', ws = redactAuthorization lib s :: ws' ∧ Gathered lib 0 ss [] ws' := by
  cases h with
  | @word k _ g _ ws hk _ _ hrest =>
    obtain rfl : k = 0 := by
      by_contra hne
      exact hs (hk hne)
    obtain rfl := hrest.nothing_added
    exact ⟨ws, by rw [List.append_nil], hrest⟩

/-- An authorization takes the next token where it has none of the characters at which its value
ends. -/
theorem authorized {t : Str} (h : Gathered lib 0 (s :: t :: ss) g ws) (hs : AuthorizesValue lib s)
    (ht : ∀ c ∈ t, isCredentialChar c) : ∃ ws', ws = redactAuthorization lib s :: ws' ∧
      MaskedEnd (redactAuthorization lib s) ∧ Gathered lib 0 ss [] ws' := by
  cases h with
  | @word k _ g _ ws _ hmasked honly hrest =>
    obtain rfl := honly hs (List.cons_ne_nil _ _)
    cases hrest with
    | taken _ hrest => exact ⟨ws, by rw [List.append_nil], (hmasked rfl).2, hrest⟩
    | partly hnot => exact absurd ht hnot

/-- Nothing is added to a word by an authorization that takes all of the next token. -/
theorem first (h : Gathered lib 0 (s :: ss) g ws)
    (hs : AuthorizesValue lib s → ∀ t ∈ ss.head?, ∀ c ∈ t, isCredentialChar c) :
    ∃ ws', ws = redactAuthorization lib s :: ws' ∧ ws'.length ≤ ss.length := by
  cases h with
  | @word k _ g _ ws _ hvalue _ hrest =>
    have hlength := hrest.length_le
    cases hrest with
    | partly hnot => exact absurd (hs (hvalue rfl).1 _ rfl) hnot
    | _ => exact ⟨_, by rw [List.append_nil], hlength⟩

theorem tokens (h : Gathered lib k ss g ws) (hss : ∀ t ∈ ss, IsToken t) :
    (∀ c ∈ g, isSpace c = false ∧ isQuote c = false) ∧ ∀ w ∈ ws, IsToken w := by
  have hadd : ∀ {s g : Str}, IsToken s → (∀ c ∈ g, isSpace c = false ∧ isQuote c = false) → IsToken (s ++ g) := by
    intro s g hs hg
    obtain ⟨x, r, rfl, hx⟩ := hs.head
    exact ⟨List.forall_mem_append.2 ⟨hs.chars, hg⟩, x, r ++ g, rfl, hx⟩
  have hredacted : IsToken redacted := ⟨by decide, 'R', _, rfl, .inr rfl⟩
  have hleft : ∀ {s : Str}, IsToken s → ∀ c ∈ leftOver lib s, isSpace c = false ∧ isQuote c = false := by
    intro s hs
    have hpart : ∀ c ∈ s.dropWhile isCredentialChar, isSpace c = false ∧ isQuote c = false :=
      fun c hc => hs.chars c ((List.dropWhile_suffix _).subset hc)
    have hedit : Edit (s.dropWhile isCredentialChar) (leftOver lib s) :=
      masks_authorization.edit (substitutes_subFrom (advances_of_consumes rfl) _ _ _) fun c hc => (hpart c hc).2
    exact hedit.chars (by decide) hpart
  induction h with
  | done => exact ⟨nofun, nofun⟩
  | @word k s g ss ws _ _ _ _ ih =>
    rw [List.forall_mem_cons] at hss
    obtain ⟨hg, hws⟩ := ih hss.2
    have hedit : Edit s (redactAuthorization lib s) :=
      masks_authorization.edit (substitutes_subFrom (advances_of_consumes rfl) _ _ _)
        fun c hc => (hss.1.chars c hc).2
    exact ⟨nofun, List.forall_mem_cons.2 ⟨hadd (isToken_edit hedit hss.1) hg, hws⟩⟩
  | taken _ _ ih => exact ⟨nofun, (ih (List.forall_mem_cons.1 hss).2).2⟩
  | partly _ _ ih =>
    rw [List.forall_mem_cons] at hss
    obtain ⟨hg, hws⟩ := ih hss.2
    exact ⟨List.forall_mem_append.2 ⟨hleft hss.1, hg⟩, hws⟩
  | hidden _ _ ih =>
    obtain ⟨hg, hws⟩ := ih (List.forall_mem_cons.1 hss).2
    exact ⟨nofun, List.forall_mem_cons.2 ⟨hadd hredacted hg, hws⟩⟩
  | partlyHidden _ _ ih =>
    rw [List.forall_mem_cons] at hss
    obtain ⟨hg, hws⟩ := ih hss.2
    exact ⟨nofun, List.forall_mem_cons.2 ⟨hadd hredacted (List.forall_mem_append.2 ⟨hleft hss.1, hg⟩), hws⟩⟩

end Gathered

end

end BitcoinRpcOperator.Redaction
