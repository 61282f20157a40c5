import BitcoinRpcOperator.PartedSubstitution
import BitcoinRpcOperator.RedactionPatterns

/-!
# The passes of the redactor over a command line

Four of the substitutions have matches that reach over the space between two tokens: the one
for authorizations, the one for options, where a bare switch takes the next token for its
value, and the ones for assignments and for keywords at the end of a token.
-/

namespace BitcoinRpcOperator.Redaction
open Text Backtracking PythonValues

theorem isNameChar_bound {c : Char} (h : isNameChar c) :
    c.toNat < 128 ∨ c.toNat ∈ [0x130, 0x131, 0x17f, 0x212a] := by
  simp only [isNameChar, isLetter, Char.isAlpha, Char.isUpper, Char.isLower, Bool.or_eq_true, Bool.and_eq_true,
    decide_eq_true_eq, beq_iff_eq, Char.isDigit_iff_toNat, or_assoc] at h
  rcases h with ⟨-, h⟩ | ⟨-, h⟩ | h | h | h | h | h | rfl | rfl | rfl
  · exact .inl ((UInt32.le_iff_toNat_le.1 h).trans_lt (by decide))
  · exact .inl ((UInt32.le_iff_toNat_le.1 h).trans_lt (by decide))
  · exact .inr (by simp [h])
  · exact .inr (by simp [h])
  · exact .inr (by simp [h])
  · exact .inr (by simp [h])
  · exact .inl (h.2.trans_lt (by decide))
  all_goals exact .inl (by decide)

/-- What a character of a name is not. -/
theorem isNameChar_cases {c : Char} (h : isNameChar c) :
    isSpace c = false ∧ isSep c = false ∧ isStop c = false ∧ isQuote c = false ∧ isOpener c = false ∧
      (c == '/') = false := by
  have hsmall : ∀ n < 128, isNameChar (Char.ofNat n) → isSpace (Char.ofNat n) = false ∧
      isSep (Char.ofNat n) = false ∧ isStop (Char.ofNat n) = false ∧ isQuote (Char.ofNat n) = false ∧
      isOpener (Char.ofNat n) = false ∧ (Char.ofNat n == '/') = false := by decide +kernel
  have hlarge : ∀ n ∈ [0x130, 0x131, 0x17f, 0x212a], isNameChar (Char.ofNat n) →
      isSpace (Char.ofNat n) = false ∧ isSep (Char.ofNat n) = false ∧ isStop (Char.ofNat n) = false ∧
      isQuote (Char.ofNat n) = false ∧ isOpener (Char.ofNat n) = false ∧ (Char.ofNat n == '/') = false := by
    decide +kernel
  have hc := (isNameChar_bound h).elim (hsmall c.toNat) (hlarge c.toNat)
  rw [Char.ofNat_toNat] at hc
  exact hc h

theorem isLetter_isNameChar {c : Char} (h : isLetter c) : isNameChar c := by simp [isNameChar, h]

/-- The letters of a word are characters of names. -/
theorem letter_isNameChar {c x : Char} (hc : c.isLower) (h : letter c x) : isNameChar x := by
  simp only [letter, Bool.or_eq_true, Bool.and_eq_true, beq_iff_eq] at h
  rcases h with ((h | ⟨-, h⟩) | ⟨-, h⟩) | ⟨-, h⟩
  · have hletter : x.isAlpha := by
      unfold Char.toLower at h
      split_ifs at h with hupper
      · have hup : x.isUpper := by simpa [Char.isUpper] using hupper
        simp [Char.isAlpha, hup]
      · subst h
        simp [Char.isAlpha, hc]
    simp [isNameChar, isLetter, hletter]
  · rcases h with h | h <;> simp [isNameChar, isLetter, h]
  · simp [isNameChar, isLetter, h]
  · simp [isNameChar, isLetter, h]

theorem spells_isNameChar {w : String} {s : Str} (hw : ∀ c ∈ w.toList, c.isLower) (h : Spells w s) :
    ∀ x ∈ s, isNameChar x := by
  unfold Spells at h
  generalize w.toList = cs at hw h
  induction h with
  | nil => nofun
  | cons hx _ ih =>
    rw [List.forall_mem_cons] at hw ⊢
    exact ⟨letter_isNameChar hw.1 hx, ih hw.2⟩

theorem isSep_cases {c : Char} (h : isSep c) : c = ':' ∨ c = '=' := by simpa [isSep] using h

/-- A token, or what was put in its place. -/
structure IsToken (s : Str) : Prop where
  chars : ∀ c ∈ s, isSpace c = false ∧ isQuote c = false
  head : ∃ c r, s = c :: r ∧ (c = '-' ∨ c = 'R')

section
variable {s front x y : Str} {ss : List Str}

theorem IsToken.no_space (h : IsToken s) : ∀ c ∈ s, isSpace c = false := fun c hc => (h.chars c hc).1

theorem quotes_of_parts {s : Str} {ss : List Str} (hs : ∀ c ∈ s, isQuote c = false) (hss : ∀ t ∈ ss, IsToken t) :
    ∀ c ∈ s ++ partsAfter ' ' ss, isQuote c = false := by
  rw [List.forall_mem_append]
  refine ⟨hs, ?_⟩
  induction ss with
  | nil => nofun
  | cons t ss ih =>
    rw [List.forall_mem_cons] at hss
    rw [partsAfter, List.forall_mem_cons, List.forall_mem_append]
    exact ⟨by decide, fun c hc => (hss.1.chars c hc).2, ih hss.2⟩

/-- All whitespace in a line of tokens are the spaces between them. -/
theorem space_of_parts {s : Str} {ss : List Str} (hs : ∀ c ∈ s, isSpace c = false) (hss : ∀ t ∈ ss, IsToken t) :
    ∀ c ∈ s ++ partsAfter ' ' ss, isSpace c → c = ' ' := by
  have hnone : ∀ {t : Str}, (∀ c ∈ t, isSpace c = false) → ∀ c ∈ t, isSpace c → c = ' ' := by
    intro t ht c hc hspace
    rw [ht c hc] at hspace
    cases hspace
  rw [List.forall_mem_append]
  refine ⟨hnone hs, ?_⟩
  induction ss with
  | nil => nofun
  | cons t ss ih =>
    rw [List.forall_mem_cons] at hss
    rw [partsAfter, List.forall_mem_cons, List.forall_mem_append]
    exact ⟨fun _ => rfl, hnone hss.1.no_space, ih hss.2⟩

/-- What reaches over the end of a token has the space behind it. -/
theorem space_of_cross {s a rest : Str} {ss : List Str} (h : s ++ partsAfter ' ' ss = a ++ rest)
    (hless : rest.length < (partsAfter ' ' ss).length) : ' ' ∈ a := by
  obtain ⟨b, rfl, hparts⟩ : ∃ b, a = s ++ b ∧ partsAfter ' ' ss = b ++ rest := by
    rcases List.append_eq_append_iff.1 h with ⟨b, rfl, hparts⟩ | ⟨b, -, hrest⟩
    · exact ⟨b, rfl, hparts⟩
    · rw [hrest, List.length_append] at hless
      omega
  cases b with
  | nil =>
    rw [hparts] at hless
    exact absurd hless (lt_irrefl _)
  | cons c b =>
    cases ss with
    | nil => cases hparts
    | cons t ss =>
      obtain ⟨rfl, -⟩ := List.cons.inj hparts
      simp

/-- The first whitespace after a token is the space behind it. -/
theorem gap_split {s front y : Str} {x : Char} {ss : List Str} (hs : ∀ c ∈ s, isSpace c = false)
    (hfront : ∀ c ∈ front, isSpace c = false) (hx : isSpace x)
    (h : s ++ partsAfter ' ' ss = front ++ x :: y) :
    front = s ∧ x = ' ' ∧ ∃ t ss', ss = t :: ss' ∧ y = t ++ partsAfter ' ' ss' := by
  rcases List.append_eq_append_iff.1 h with ⟨w, rfl, hparts⟩ | ⟨w, rfl, hparts⟩
  · cases w with
    | nil =>
      cases ss with
      | nil => cases hparts
      | cons t ss =>
        obtain ⟨rfl, rfl⟩ := List.cons.inj hparts
        exact ⟨by simp, rfl, t, ss, rfl, rfl⟩
    | cons c w =>
      cases ss with
      | nil => cases hparts
      | cons t ss =>
        obtain ⟨rfl, -⟩ := List.cons.inj hparts
        exact absurd (hfront ' ' (by simp)) (by decide)
  · cases w with
    | nil =>
      cases ss with
      | nil => cases hparts
      | cons t ss =>
        obtain ⟨rfl, rfl⟩ := List.cons.inj hparts
        exact ⟨by simp, rfl, t, ss, rfl, rfl⟩
    | cons c w =>
      obtain ⟨rfl, -⟩ := List.cons.inj hparts
      rw [hs x (by simp)] at hx
      cases hx

/-- No token starts with whitespace. -/
theorem gap_nil {gap y t : Str} {ss : List Str} (hgap : ∀ c ∈ gap, isSpace c) (ht : IsToken t)
    (h : gap ++ y = t ++ partsAfter ' ' ss) : gap = [] := by
  cases gap with
  | nil => rfl
  | cons c gap =>
    obtain ⟨d, r, rfl, hd⟩ := ht.head
    obtain ⟨rfl, -⟩ := List.cons.inj h
    have hc := hgap c (by simp)
    rcases hd with rfl | rfl <;> exact absurd hc (by decide)

theorem head_dropWhile (p : Char → Bool) (s : Str) : (s.dropWhile p).head?.any p = false := by
  cases hdrop : s.dropWhile p with
  | nil => rfl
  | cons y l =>
    have hnot := List.head_dropWhile_not p (by simp [hdrop] : s.dropWhile p ≠ [])
    simpa [hdrop] using hnot

/-- What a class of characters takes of a text that starts with a token. -/
theorem value_split {p : Char → Bool} (hp : p ' ' = false) {u rest t : Str} {ss : List Str}
    (hu : ∀ c ∈ u, p c) (hrest : rest.head?.any p = false) (h : u ++ rest = t ++ partsAfter ' ' ss) :
    u = t.takeWhile p := by
  have hnext : (t.dropWhile p ++ partsAfter ' ' ss).head?.any p = false := by
    have hhead := head_dropWhile p t
    cases hdrop : t.dropWhile p with
    | nil =>
      cases ss with
      | nil => rfl
      | cons t ss => simpa [partsAfter] using hp
    | cons y l =>
      rw [hdrop] at hhead
      exact hhead
  calc u = (u ++ rest).takeWhile p := (takeWhile_stop hu hrest).symm
    _ = (t.takeWhile p ++ (t.dropWhile p ++ partsAfter ' ' ss)).takeWhile p := by
      rw [h, ← List.append_assoc, List.takeWhile_append_dropWhile]
    _ = t.takeWhile p := takeWhile_stop (fun c hc => List.mem_takeWhile_imp hc) hnext

/-- A match that takes whitespace between `front` and a value reaches from the token over the
space to the value at the beginning of the next token. -/
theorem cross_shape {p : Char → Bool} (hp : p ' ' = false) {s front gap u rest : Str} {ss : List Str}
    (hs : ∀ c ∈ s, isSpace c = false) (hss : ∀ t ∈ ss, IsToken t) (hfront : ∀ c ∈ front, isSpace c = false)
    (hne : gap ≠ []) (hgap : ∀ c ∈ gap, isSpace c) (hu : ∀ c ∈ u, p c) (hrest : rest.head?.any p = false)
    (h : s ++ partsAfter ' ' ss = front ++ (gap ++ (u ++ rest))) :
    s = front ∧ gap = [' '] ∧ ∃ t ss', ss = t :: ss' ∧ u = t.takeWhile p := by
  obtain ⟨x, gap, rfl⟩ := List.exists_cons_of_ne_nil hne
  rw [List.forall_mem_cons] at hgap
  obtain ⟨rfl, rfl, t, ss', rfl, hnext⟩ := gap_split hs hfront hgap.1 h
  obtain rfl := gap_nil hgap.2 (hss t (by simp)) hnext
  exact ⟨rfl, rfl, t, ss', rfl, value_split hp hu hrest hnext⟩

/-- No whitespace stands before a separator. -/
theorem gap_before_sep {s front gap y : Str} {x : Char} {ss : List Str} (hs : ∀ c ∈ s, isSpace c = false)
    (hss : ∀ t ∈ ss, IsToken t) (hfront : ∀ c ∈ front, isSpace c = false) (hgap : ∀ c ∈ gap, isSpace c)
    (hx : isSep x) (h : s ++ partsAfter ' ' ss = front ++ (gap ++ x :: y)) : gap = [] := by
  by_contra hne
  obtain ⟨c, gap, rfl⟩ := List.exists_cons_of_ne_nil hne
  rw [List.forall_mem_cons] at hgap
  obtain ⟨-, -, t, ss', rfl, hnext⟩ := gap_split hs hfront hgap.1 h
  have ht := hss t (by simp)
  obtain rfl := gap_nil hgap.2 ht hnext
  obtain ⟨d, r, rfl, hd⟩ := ht.head
  obtain ⟨rfl, -⟩ := List.cons.inj hnext
  rcases hd with rfl | rfl <;> exact absurd hx (by decide)

/-- Behind the only separator of a key there is nothing. -/
theorem sep_last {key front back : Str} {x c : Char} (hkey : ∀ y ∈ key, isSep y = false) (hc : isSep c)
    (h : key ++ [x] = front ++ c :: back) : back = [] := by
  by_contra hne
  obtain ⟨back, y, rfl⟩ := List.eq_nil_or_concat back |>.resolve_left hne
  have hsplit : key = front ++ c :: back := by
    have h' : key ++ [x] = (front ++ c :: back) ++ [y] := by simpa using h
    exact (List.append_inj' h' rfl).1
  rw [hkey c (by simp [hsplit])] at hc
  cases hc

end

section
variable (lib : Library)

def authorizationPass : Pass where
  pattern := authorizationPattern lib
  replace _ d := d.captured 1 ++ redacted
  takes := isCredentialChar
  hides _ := true
  new := redacted

def flagPass : Pass where
  pattern := flagPattern
  replace := keep [1, 2, 3] 2
  takes := isValueChar
  hides d := keyIsSensitive (d.captured 2)
  new := redacted

def assignmentPass : Pass where
  pattern := assignmentPattern
  replace := keep [1, 2] 1
  takes := isValueChar
  hides d := keyIsSensitive (d.captured 1)
  new := redacted

def keywordPass : Pass where
  pattern := keywordPattern lib
  replace _ d := d.captured 1 ++ redacted
  takes := isSecretChar
  hides _ := true
  new := redacted

end

/-- A text in which no match starts is not replaced. -/
theorem substitutes_none {r : Pattern} {f : Str → Cursor → Str} (hr : Advances r) {s : Str}
    (h : ∀ front back passed, s = front ++ back → matchAt r ⟨passed, back, []⟩ = none) (passed : Str) :
    Substitutes r f passed s s := by
  have hkeeps : Substitutes r f passed (s ++ []) (s ++ []) := Substitutes.keeps_front
    (fun front x back hs => by simpa using h front (x :: back) (front.reverse ++ passed) hs)
    (.done (hr.at_end _))
  simpa using hkeeps

theorem matchAt_none {r : Pattern} {c : Cursor} (h : ∀ d, matchAt r c ≠ some d) : matchAt r c = none := by
  cases hmatch : matchAt r c with
  | none => rfl
  | some d => exact absurd hmatch (h d)

theorem flag_names {dash name : Str} (hdash : IsDash dash) (hname : ∀ x ∈ name, isNameChar x) :
    ∀ x ∈ dash ++ name, isNameChar x := by
  rw [List.forall_mem_append]
  refine ⟨?_, hname⟩
  rcases hdash with rfl | rfl <;> simp <;> decide

theorem names_no_space {s : Str} (h : ∀ x ∈ s, isNameChar x) : ∀ x ∈ s, isSpace x = false :=
  fun x hx => (isNameChar_cases (h x hx)).1

theorem value_no_space {u : Str} (hu : ∀ x ∈ u, isValueChar x) : ∀ x ∈ u, isSpace x = false := by
  intro x hx
  have hvalue := hu x hx
  simp only [isValueChar, Bool.and_eq_true, Bool.not_eq_true'] at hvalue
  exact hvalue.1

/-- In a name there is no option with a value. -/
theorem flag_not_in_name {s : Str} (hs : ∀ x ∈ s, isNameChar x) (hquote : ∀ x ∈ s, isQuote x = false)
    (passed : Str) : Substitutes flagPattern (keep [1, 2, 3] 2) passed s s := by
  refine substitutes_none (advances_of_consumes rfl) (fun front back passed hsplit => matchAt_none ?_) passed
  intro d h
  have hback : ∀ x ∈ back, x ∈ s := fun x hx => by simp [hsplit, hx]
  obtain ⟨dash, name, sep, u, tail, -, -, -, hsep, -, -, -, -, ⟨hrest, -⟩, -⟩ :=
    flagPattern_match (fun x hx => hquote x (hback x hx)) h
  obtain ⟨x, hx, hnot⟩ : ∃ x ∈ sep, isNameChar x = false := by
    rcases hsep with rfl | ⟨hne, hspaces⟩
    · exact ⟨'=', by simp, by decide⟩
    · obtain ⟨x, sep, rfl⟩ := List.exists_cons_of_ne_nil hne
      refine ⟨x, by simp, ?_⟩
      by_contra hname
      have hspace := (isNameChar_cases (by simpa using hname)).1
      rw [hspaces x (by simp)] at hspace
      cases hspace
  have hmem : x ∈ back := by
    have hback : back = _ := hrest
    rw [hback]
    simp [hx]
  rw [hs x (hback x hmem)] at hnot
  cases hnot

/-- A match of the option pattern that reaches over the end of a token is a switch at its end,
with the beginning of the next token for its value. -/
theorem flag_crosses {s passed a : Str} {ss : List Str} {d : Cursor} (hs : ∀ c ∈ s, isSpace c = false)
    (hquote : ∀ c ∈ s, isQuote c = false) (hss : ∀ t ∈ ss, IsToken t)
    (h : matchAt flagPattern ⟨passed, s ++ partsAfter ' ' ss, []⟩ = some d)
    (hsplit : s ++ partsAfter ' ' ss = a ++ d.rest) (hless : d.rest.length < (partsAfter ' ' ss).length) :
    ∃ dash name t ss', s = dash ++ name ∧ IsDash dash ∧ name ≠ [] ∧ (∀ c ∈ name, isNameChar c) ∧
      passed.head?.any isNameChar = false ∧ ss = t :: ss' ∧ a = s ++ ' ' :: t.takeWhile isValueChar ∧
      d.captured 1 = dash ∧ d.captured 2 = name ∧ d.captured 3 = [' '] := by
  have hspace := space_of_cross hsplit hless
  obtain ⟨dash, name, sep, u, tail, hdash, hne, hname, hsep, hune, hu, htail, hbehind, hmoved, rfl, h₁, h₂, h₃⟩ :=
    flagPattern_match (quotes_of_parts hquote hss) h
  have ha : a = dash ++ name ++ sep ++ u := List.append_cancel_right (hsplit.symm.trans hmoved.1)
  subst ha
  have hnames := flag_names hdash hname
  -- An option with `=` ends where its value ends, so the space is the one before the value.
  have hgap : sep ≠ [] ∧ ∀ y ∈ sep, isSpace y := by
    refine hsep.resolve_left ?_
    rintro rfl
    have hno : ∀ y ∈ dash ++ name ++ ['='] ++ u, isSpace y = false := by
      simp only [List.forall_mem_append, List.forall_mem_singleton]
      exact ⟨⟨List.forall_mem_append.1 (names_no_space hnames), by decide⟩, value_no_space hu⟩
    exact absurd (hno ' ' hspace) (by decide)
  obtain ⟨rfl, rfl, t, ss', rfl, hvalue⟩ := cross_shape (p := isValueChar) (by decide) hs hss
    (names_no_space hnames) hgap.1 hgap.2 hu htail (by rw [hsplit]; simp)
  exact ⟨dash, name, t, ss', rfl, hdash, hne, hname, hbehind, rfl, by rw [hvalue]; simp, h₁, h₂, h₃⟩

theorem flagPass_lawful : flagPass.Lawful ' ' IsToken where
  blind := rfl
  advances := advances_of_consumes rfl
  replace_within := fun _ _ _ _ => rfl
  at_sep := fun passed s => by
    simp [matchAt, flagPass, flagPattern, Pattern.lit, run]
  cross := by
    intro s₁ s₂ ss passed a d hpart hparts h hsplit hless
    have hquote₂ : ∀ c ∈ s₂, isQuote c = false := fun c hc => (hpart.chars c (by simp [hc])).2
    obtain ⟨dash, name, t, ss', rfl, hdash, -, hname, -, rfl, rfl, h₁, h₂, h₃⟩ :=
      flag_crosses (fun c hc => hpart.no_space c (by simp [hc])) hquote₂ hparts h hsplit hless
    refine ⟨t, ss', rfl, rfl, ?_, flag_not_in_name (flag_names hdash hname) hquote₂⟩
    by_cases hsensitive : keyIsSensitive name
    · simp [flagPass, keep, h₁, h₂, h₃, hsensitive]
    · simp [flagPass, keep, h₂, hsensitive]

/-- In a key with its separator there is no assignment. -/
theorem assignment_not_in_key {key : Str} {x : Char} (hkey : ∀ y ∈ key, isSep y = false)
    (hquote : ∀ y ∈ key ++ [x], isQuote y = false) (passed : Str) :
    Substitutes assignmentPattern (keep [1, 2] 1) passed (key ++ [x]) (key ++ [x]) := by
  refine substitutes_none (advances_of_consumes rfl) (fun front back passed hsplit => matchAt_none ?_) passed
  intro d h
  obtain ⟨y, name, gap, sep, gap', u, tail, -, -, -, hsep, -, hne, -, -, -, ⟨hrest, -⟩, -⟩ :=
    assignmentPattern_match (fun z hz => hquote z (by simp [hsplit, hz])) h
  have hback : back = y :: name ++ (gap ++ sep :: gap') ++ u ++ d.rest := hrest
  have hwhole : key ++ [x] = (front ++ (y :: name ++ gap)) ++ sep :: (gap' ++ u ++ d.rest) := by
    rw [hsplit, hback]
    simp
  have hlast := sep_last hkey hsep hwhole
  simp [hne] at hlast

/-- A match of the assignment pattern that reaches over the end of a token is a key with its
separator at its end, with the beginning of the next token for its value. -/
theorem assignment_crosses {s passed a : Str} {ss : List Str} {d : Cursor} (hs : ∀ c ∈ s, isSpace c = false)
    (hquote : ∀ c ∈ s, isQuote c = false) (hss : ∀ t ∈ ss, IsToken t)
    (h : matchAt assignmentPattern ⟨passed, s ++ partsAfter ' ' ss, []⟩ = some d)
    (hsplit : s ++ partsAfter ' ' ss = a ++ d.rest) (hless : d.rest.length < (partsAfter ' ' ss).length) :
    ∃ x key sep t ss', s = x :: key ++ [sep] ∧ isLetter x ∧ (∀ c ∈ key, isNameChar c) ∧ isSep sep ∧
      passed.head?.any isNameChar = false ∧ ss = t :: ss' ∧ a = s ++ ' ' :: t.takeWhile isValueChar ∧
      d.captured 1 = x :: key ∧ d.captured 2 = [sep, ' '] := by
  have hspace := space_of_cross hsplit hless
  obtain ⟨x, key, gap, sep, gap', u, tail, hx, hkey, hgap, hsep, hgap', hne, hu, htail, hbehind, hmoved, rfl,
    h₁, h₂⟩ := assignmentPattern_match (quotes_of_parts hquote hss) h
  have ha : a = x :: key ++ (gap ++ sep :: gap') ++ u :=
    List.append_cancel_right (hsplit.symm.trans hmoved.1)
  subst ha
  have hnames : ∀ y ∈ x :: key, isNameChar y := List.forall_mem_cons.2 ⟨isLetter_isNameChar hx, hkey⟩
  obtain rfl : gap = [] := gap_before_sep (x := sep) hs hss (names_no_space hnames) hgap hsep (by
    rw [hsplit, List.append_assoc, List.append_assoc, List.append_assoc]
    rfl)
  have hfront : ∀ y ∈ x :: key ++ [sep], isSpace y = false := by
    rw [List.forall_mem_append, List.forall_mem_singleton]
    exact ⟨names_no_space hnames, by rcases isSep_cases hsep with rfl | rfl <;> decide⟩
  have hgap'ne : gap' ≠ [] := by
    rintro rfl
    have hno : ∀ y ∈ x :: key ++ ([] ++ [sep]) ++ u, isSpace y = false := by
      rw [List.forall_mem_append]
      exact ⟨hfront, value_no_space hu⟩
    exact absurd (hno ' ' hspace) (by decide)
  obtain ⟨rfl, rfl, t, ss', rfl, hvalue⟩ := cross_shape (p := isValueChar) (by decide) hs hss
    hfront hgap'ne hgap' hu htail (by rw [hsplit]; simp)
  exact ⟨x, key, sep, t, ss', rfl, hx, hkey, hsep, hbehind, rfl, by rw [hvalue]; simp, h₁, h₂⟩

theorem assignmentPass_lawful : assignmentPass.Lawful ' ' IsToken where
  blind := rfl
  advances := advances_of_consumes rfl
  replace_within := fun _ _ _ _ => rfl
  at_sep := fun passed s => by
    have hnot : isLetter ' ' = false := by decide
    simp [matchAt, assignmentPass, assignmentPattern, run, hnot]
  cross := by
    intro s₁ s₂ ss passed a d hpart hparts h hsplit hless
    have hquote₂ : ∀ c ∈ s₂, isQuote c = false := fun c hc => (hpart.chars c (by simp [hc])).2
    obtain ⟨x, key, sep, t, ss', rfl, hx, hkey, -, -, rfl, rfl, h₁, h₂⟩ :=
      assignment_crosses (fun c hc => hpart.no_space c (by simp [hc])) hquote₂ hparts h hsplit hless
    have hnames : ∀ y ∈ x :: key, isNameChar y := List.forall_mem_cons.2 ⟨isLetter_isNameChar hx, hkey⟩
    refine ⟨t, ss', rfl, rfl, ?_, assignment_not_in_key (fun y hy => (isNameChar_cases (hnames y hy)).2.1) hquote₂⟩
    by_cases hsensitive : keyIsSensitive (x :: key)
    · simp [assignmentPass, keep, h₁, h₂, hsensitive]
    · simp [assignmentPass, keep, h₁, hsensitive]

theorem credential_no_space {u : Str} (hu : ∀ x ∈ u, isCredentialChar x) : ∀ x ∈ u, isSpace x = false := by
  intro x hx
  have hvalue := hu x hx
  simp only [isCredentialChar, Bool.and_eq_true, Bool.not_eq_true'] at hvalue
  exact hvalue.1.1

section
variable {lib : Library}

theorem authorization_not_in_key {key : Str} {x : Char} (hkey : ∀ y ∈ key, isSep y = false)
    (hquote : ∀ y ∈ key ++ [x], isQuote y = false) (passed : Str) :
    Substitutes (authorizationPattern lib) (authorizationPass lib).replace passed (key ++ [x]) (key ++ [x]) := by
  refine substitutes_none (advances_of_consumes rfl) (fun front back passed hsplit => matchAt_none ?_) passed
  intro d h
  obtain ⟨w, gap, sep, gap', u, more, -, -, hsep, -, hne, -, -, -, -, -, ⟨hrest, -⟩, -⟩ :=
    authorizationPattern_match (fun z hz => hquote z (by simp [hsplit, hz])) h
  have hback : back = w ++ gap ++ sep :: gap' ++ (u ++ more) ++ d.rest := hrest
  have hwhole : key ++ [x] = (front ++ (w ++ gap)) ++ sep :: (gap' ++ (u ++ more) ++ d.rest) := by
    rw [hsplit, hback]
    simp
  have hlast := sep_last hkey hsep hwhole
  simp [hne] at hlast

theorem authorizationPass_parted : (authorizationPass lib).Parted ' ' where
  blind := rfl
  advances := advances_of_consumes rfl
  replace_within := fun _ _ _ _ => rfl
  at_sep := fun passed s => by
    have hnot : letter 'a' ' ' = false := by decide
    simp [matchAt, authorizationPass, authorizationPattern, word, run, hnot]

end

theorem secret_no_space {u : Str} (hu : ∀ x ∈ u, isSecretChar x) : ∀ x ∈ u, isSpace x = false := by
  intro x hx
  have hvalue := hu x hx
  simp only [isSecretChar, Bool.and_eq_true, Bool.not_eq_true'] at hvalue
  exact hvalue.1

theorem letter_space {x : Char} (h : letter ' ' x) : x = ' ' := by
  have hlower : x.toLower = ' ' := by simpa [letter] using h
  unfold Char.toLower at hlower
  split_ifs at hlower with hupper
  · have hval : x.val + ('a'.val - 'A'.val) = ' '.val := congrArg Char.val hlower
    have hnat := congrArg UInt32.toNat hval
    have hlow : 65 ≤ x.val.toNat := UInt32.le_iff_toNat_le.1 hupper.1
    have hhigh : x.val.toNat ≤ 90 := UInt32.le_iff_toNat_le.1 hupper.2
    have hsum : (x.val + ('a'.val - 'A'.val)).toNat = (x.val.toNat + 32) % 2 ^ 32 := UInt32.toNat_add _ _
    rw [hsum] at hnat
    have hthirty : (' '.val).toNat = 32 := rfl
    omega
  · exact hlower

/-- Of the keywords, `private key` is in no line of tokens. -/
theorem keyword_in_tokens {s w y : Str} {ss : List Str} (hs : ∀ c ∈ s, isSpace c = false)
    (hss : ∀ t ∈ ss, IsToken t) (hw : IsKeyword w) (h : s ++ partsAfter ' ' ss = w ++ y) :
    ∀ x ∈ w, isNameChar x := by
  obtain ⟨v, hv, hspells⟩ := hw
  by_cases hlower : ∀ c ∈ v.toList, c.isLower
  · exact spells_isNameChar hlower hspells
  · have hall : ∀ v ∈ ["password", "secret", "token", "credential", "cookie", "rpcauth", "rpcuser",
        "private key"], (¬ ∀ c ∈ v.toList, c.isLower) → v = "private key" := by decide
    obtain rfl := hall v hv hlower
    obtain ⟨w₁, x, k, w₂, rfl, hprivate, hx, hk⟩ : ∃ w₁ x k w₂, w = w₁ ++ x :: k :: w₂ ∧
        Spells "private" w₁ ∧ letter ' ' x ∧ letter 'k' k := by
      have hfirst := (List.forall₂_take_append w "private".toList [' ', 'k', 'e', 'y'] hspells.flip).flip
      have hsecond := (List.forall₂_drop_append w "private".toList [' ', 'k', 'e', 'y'] hspells.flip).flip
      have hsplit := List.take_append_drop "private".toList.length w
      generalize w.drop "private".toList.length = w₂ at hsecond hsplit
      cases hsecond with
      | @cons _ x _ r hx hsecond =>
        cases hsecond with
        | @cons _ k _ r hk => exact ⟨_, x, k, r, hsplit.symm, hfirst, hx, hk⟩
    obtain rfl := letter_space hx
    have hnames := spells_isNameChar (w := "private") (by decide) hprivate
    obtain ⟨-, -, t, ss', rfl, hnext⟩ := gap_split (x := ' ') (y := k :: w₂ ++ y) hs (names_no_space hnames) (by decide) (by
      rw [h]
      simp)
    obtain ⟨d, r, rfl, hd⟩ := (hss t (by simp)).head
    obtain ⟨rfl, -⟩ := List.cons.inj hnext
    rcases hd with rfl | rfl <;> exact absurd hk (by decide)

section
variable {lib : Library}

/-- Without whitespace there is no keyword with a value. -/
theorem keyword_needs_space {s : Str} (hs : ∀ y ∈ s, isSpace y = false) (passed : Str) :
    Substitutes (keywordPattern lib) (keywordPass lib).replace passed s s := by
  refine substitutes_none (advances_of_consumes rfl) (fun front back passed hsplit => matchAt_none ?_) passed
  intro d h
  obtain ⟨w, gap, sep, gap', u, tail, -, -, -, hne, hgap', -, -, -, -, -, ⟨hrest, -⟩, -⟩ := keywordPattern_match h
  obtain ⟨x, gap', rfl⟩ := List.exists_cons_of_ne_nil hne
  have hback : back = w ++ gap ++ sep ++ (x :: gap') ++ u ++ d.rest := hrest
  have hx := hs x (by simp [hsplit, hback])
  rw [hgap' x (by simp)] at hx
  cases hx

/-- A match of the keyword pattern reaches from a keyword at the end of a token, with a separator
or without, into the next one. -/
theorem keyword_crosses {s passed a : Str} {ss : List Str} {d : Cursor} (hs : ∀ c ∈ s, isSpace c = false)
    (hss : ∀ t ∈ ss, IsToken t) (h : matchAt (keywordPattern lib) ⟨passed, s ++ partsAfter ' ' ss, []⟩ = some d)
    (hsplit : s ++ partsAfter ' ' ss = a ++ d.rest) :
    ∃ w sep t ss', s = w ++ sep ∧ IsKeyword w ∧ (∀ c ∈ w, isNameChar c) ∧ (sep = [] ∨ ∃ x, sep = [x] ∧ isSep x) ∧
      passed.head?.any isNameChar = false ∧
      passed.head?.any (isWord lib) ≠ (s ++ partsAfter ' ' ss).head?.any (isWord lib) ∧ ss = t :: ss' ∧
      a = s ++ ' ' :: t.takeWhile isSecretChar ∧ d.captured 1 = s ++ [' '] := by
  obtain ⟨w, gap, sep, gap', u, tail, hw, hgap, hsep, hne', hgap', hne, hu, htail, hbehind, hboundary, hmoved, rfl,
    h₁⟩ := keywordPattern_match h
  have ha : a = w ++ gap ++ sep ++ gap' ++ u := List.append_cancel_right (hsplit.symm.trans hmoved.1)
  subst ha
  have hnames := keyword_in_tokens (y := gap ++ sep ++ gap' ++ u ++ d.rest) hs hss hw (by
    rw [hsplit]
    simp only [List.append_assoc])
  rcases hsep with rfl | ⟨x, rfl, hx⟩
  · -- Without a separator, the whitespace behind the keyword is one gap.
    have hblank : ∀ c ∈ gap ++ gap', isSpace c := by
      rw [List.forall_mem_append]
      exact ⟨hgap, hgap'⟩
    obtain ⟨rfl, hone, t, ss', rfl, hvalue⟩ := cross_shape (p := isSecretChar) (by decide) hs hss
      (names_no_space hnames) (by simp [hne']) hblank hu htail (by
        rw [hsplit]
        simp only [List.append_assoc, List.nil_append])
    have hfront : s ++ gap ++ [] ++ gap' = s ++ [' '] := by rw [← hone]; simp
    exact ⟨s, [], t, ss', by simp, hw, hnames, .inl rfl, hbehind, hboundary, rfl, by rw [hfront, hvalue]; simp,
      h₁.trans hfront⟩
  · obtain rfl : gap = [] := gap_before_sep (x := x) hs hss (names_no_space hnames) hgap hx (by
      rw [hsplit]
      simp only [List.append_assoc]
      rfl)
    have hfront : ∀ c ∈ w ++ [x], isSpace c = false := by
      rw [List.forall_mem_append, List.forall_mem_singleton]
      exact ⟨names_no_space hnames, by rcases isSep_cases hx with rfl | rfl <;> decide⟩
    obtain ⟨rfl, rfl, t, ss', rfl, hvalue⟩ := cross_shape (p := isSecretChar) (by decide) hs hss
      hfront hne' hgap' hu htail (by
        rw [hsplit]
        simp only [List.append_assoc, List.nil_append])
    exact ⟨w, [x], t, ss', rfl, hw, hnames, .inr ⟨x, rfl, hx⟩, hbehind, hboundary, rfl, by rw [hvalue]; simp,
      by rw [h₁]; simp⟩

theorem keywordPass_lawful : (keywordPass lib).Lawful ' ' IsToken where
  blind := rfl
  advances := advances_of_consumes rfl
  replace_within := fun _ _ _ _ => rfl
  at_sep := fun passed s => by
    have hnot : ∀ c ∈ ['p', 's', 't', 'c', 'r'], letter c ' ' = false := by decide
    simp [matchAt, keywordPass, keywordPattern, word, Pattern.alts, run, hnot]
  cross := by
    intro s₁ s₂ ss passed a d hpart hparts h hsplit hless
    have hs₂ : ∀ c ∈ s₂, isSpace c = false := fun c hc => hpart.no_space c (by simp [hc])
    obtain ⟨w, sep, t, ss', hs, -, -, -, -, -, rfl, rfl, h₁⟩ := keyword_crosses hs₂ hparts h hsplit
    refine ⟨t, ss', rfl, rfl, ?_, keyword_needs_space hs₂⟩
    simp [keywordPass, h₁]

end

/-- A character behind which something is replaced. -/
def isMark (c : Char) : Bool := isSep c || isSpace c || c == '/'

/-- A character of a key or of the separator behind it. -/
def isKeyChar (c : Char) : Bool := isNameChar c || isSep c

/-- Some stretches of a text, each behind a mark and before no character of a key, are replaced
by `REDACTED`. -/
inductive Edit : Str → Str → Prop
  | nil : Edit [] []
  | keep {c : Char} {s s' : Str} : Edit s s' → Edit (c :: s) (c :: s')
  | mask {c : Char} {u s s' : Str} : isMark c → s.head?.any isKeyChar = false → Edit s s' →
      Edit (c :: (u ++ s)) (c :: (redacted ++ s'))

namespace Edit
variable {s s' : Str}

theorem append_left (h : Edit s s') (a : Str) : Edit (a ++ s) (a ++ s') := by
  induction a with
  | nil => exact h
  | cons c a ih => exact .keep ih

theorem chars {p : Char → Prop} (hp : ∀ c ∈ redacted, p c) (h : Edit s s') (hs : ∀ c ∈ s, p c) :
    ∀ c ∈ s', p c := by
  induction h with
  | nil => exact hs
  | keep _ ih =>
    rw [List.forall_mem_cons] at hs ⊢
    exact ⟨hs.1, ih hs.2⟩
  | mask _ _ _ ih =>
    rw [List.forall_mem_cons, List.forall_mem_append] at hs ⊢
    exact ⟨hs.1, hp, ih hs.2.2⟩

theorem head_eq (h : Edit s s') : s'.head? = s.head? := by
  cases h <;> rfl

/-- What stands before the first mark stays. -/
theorem keeps_front {a t : Str} (ha : ∀ c ∈ a, isMark c = false) (h : Edit (a ++ s) t) :
    ∃ s', t = a ++ s' ∧ Edit s s' := by
  induction a generalizing t with
  | nil => exact ⟨t, rfl, h⟩
  | cons c a ih =>
    rw [List.forall_mem_cons] at ha
    generalize htext : c :: a ++ s = text at h
    cases h with
    | nil => cases htext
    | keep h =>
      obtain ⟨rfl, rfl⟩ := List.cons.inj htext
      obtain ⟨s', rfl, hs⟩ := ih ha.2 h
      exact ⟨s', rfl, hs⟩
    | mask hc =>
      obtain ⟨rfl, -⟩ := List.cons.inj htext
      rw [ha.1] at hc
      cases hc

/-- An option stays an option with its name. -/
theorem keeps_name {a v t : Str} (ha : ∀ c ∈ a, isMark c = false) (hv : v ≠ [])
    (h : Edit (a ++ '=' :: v) t) : ∃ v', v' ≠ [] ∧ t = a ++ '=' :: v' := by
  obtain ⟨s', rfl, hrest⟩ := keeps_front ha h
  cases hrest with
  | @keep _ _ v' hrest =>
    refine ⟨v', ?_, rfl⟩
    rintro rfl
    exact hv (List.head?_eq_none_iff.1 hrest.head_eq.symm)
  | @mask _ _ _ s' => exact ⟨redacted ++ s', List.append_ne_nil_of_left_ne_nil (by decide) _, rfl⟩

end Edit

theorem isToken_edit {s s' : Str} (h : Edit s s') (hs : IsToken s) : IsToken s' := by
  constructor
  · exact h.chars (by decide) hs.chars
  · obtain ⟨c, r, rfl, hc⟩ := hs.head
    obtain ⟨r', hr'⟩ := List.head?_eq_some_iff.1 h.head_eq
    exact ⟨c, r', hr', hc⟩

/-- In texts without quotes, a match is replaced by itself or by a text in which a stretch
of characters in `value`, behind marks and before no character of a key, has become `REDACTED`. -/
def Masks (value : Char → Bool) (r : Pattern) (f : Str → Cursor → Str) : Prop :=
  ∀ c d a, (∀ x ∈ c.rest, isQuote x = false) → matchAt r c = some d → c.Moved a d →
    f a d = a ∨ ∃ pre marks u post, a = pre ++ marks ++ u ++ post ∧
      f a d = pre ++ marks ++ redacted ++ post ∧ marks ≠ [] ∧ (∀ x ∈ marks, isMark x) ∧ (∀ x ∈ u, value x) ∧
        (post ++ d.rest).head?.any isKeyChar = false

theorem Masks.edit {value : Char → Bool} {r : Pattern} {f : Str → Cursor → Str} (hm : Masks value r f)
    {passed s out : Str} (h : Substitutes r f passed s out) (hs : ∀ c ∈ s, isQuote c = false) : Edit s out := by
  induction h with
  | done => exact .nil
  | skip _ _ ih =>
    rw [List.forall_mem_cons] at hs
    exact .keep (ih hs.2)
  | @hit passed a s out d hsome _ hd _ ih =>
    have hrest := ih (List.forall_mem_append.1 hs).2
    rcases hm _ _ a hs hsome (moved_of_rest hsome (by rw [hd])) with
      heq | ⟨pre, marks, u, post, rfl, heq, hne, hmarks, -, hnext⟩
    · rw [heq]
      exact hrest.append_left a
    · obtain ⟨marks, c, rfl⟩ := (List.eq_nil_or_concat marks).resolve_left hne
      rw [hd] at hnext
      rw [heq]
      have hedit := (Edit.mask (c := c) (u := u) (hmarks c (by simp)) hnext (hrest.append_left post)).append_left
        (pre ++ marks)
      simpa using hedit

section
variable {lib : Library}

/-- A replacement that keeps the groups in front. -/
theorem keep_masks {groups : List ℕ} {key : ℕ} {pre marks u a : Str} {d : Cursor} {value : Char → Bool}
    (ha : a = pre ++ marks ++ u) (hgroups : groups.flatMap d.captured = pre ++ marks) (hne : marks ≠ [])
    (hmarks : ∀ x ∈ marks, isMark x) (hu : ∀ x ∈ u, value x) (hnext : d.rest.head?.any isKeyChar = false) :
    keep groups key a d = a ∨ ∃ pre marks u post, a = pre ++ marks ++ u ++ post ∧
      keep groups key a d = pre ++ marks ++ redacted ++ post ∧ marks ≠ [] ∧ (∀ x ∈ marks, isMark x) ∧
        (∀ x ∈ u, value x) ∧ (post ++ d.rest).head?.any isKeyChar = false := by
  unfold keep
  split_ifs
  · exact .inr ⟨pre, marks, u, [], by simp [ha], by simp [hgroups], hne, hmarks, hu, hnext⟩
  · exact .inl rfl

/-- What follows a value does not start with a character of a key. -/
theorem next_of_value {p : Char → Bool} (hp : ∀ c, isKeyChar c → p c) {s : Str} (h : s.head?.any p = false) :
    s.head?.any isKeyChar = false := by
  cases s with
  | nil => rfl
  | cons c s =>
    have hc : p c = false := by simpa using h
    by_contra hkey
    rw [hp c (by simpa using hkey)] at hc
    cases hc

theorem isKeyChar_cases {c : Char} (h : isKeyChar c) :
    isSpace c = false ∧ isStop c = false ∧ isQuote c = false ∧ isOpener c = false := by
  simp only [isKeyChar, Bool.or_eq_true] at h
  rcases h with h | h
  · obtain ⟨hspace, -, hstop, hquote, hopener, -⟩ := isNameChar_cases h
    exact ⟨hspace, hstop, hquote, hopener⟩
  · rcases isSep_cases h with rfl | rfl <;> decide

theorem isStop_cases {c : Char} (h : isStop c = false) :
    c ≠ ',' ∧ c ≠ ';' ∧ c ≠ '\x7d' ∧ c ≠ '&' ∧ c ≠ '#' := by
  refine ⟨?_, ?_, ?_, ?_, ?_⟩ <;>
  · rintro rfl
    exact absurd h (by decide)

/-- Every class of values has the characters of keys. -/
theorem isKeyChar_value {c : Char} (h : isKeyChar c) :
    isValueChar c ∧ isQueryChar c ∧ isSecretChar c ∧ isCredentialChar c := by
  obtain ⟨hspace, hstop, -⟩ := isKeyChar_cases h
  obtain ⟨hcomma, hsemicolon, hbrace, hand, hhash⟩ := isStop_cases hstop
  simp [isValueChar, isQueryChar, isSecretChar, isCredentialChar, hspace, hstop, hcomma, hsemicolon, hbrace,
    hand, hhash]

theorem isMark_space {c : Char} (h : isSpace c) : isMark c := by simp [isMark, h]

theorem isMark_sep {c : Char} (h : isSep c) : isMark c := by simp [isMark, h]

def noSpace (c : Char) : Bool := !isSpace c

theorem masks_flags : Masks noSpace flagPattern (keep [1, 2, 3] 2) := by
  intro c d a hquote h hmoved
  obtain ⟨dash, name, sep, u, tail, -, -, -, hsep, -, hu, htail, -, hmoved', rfl, h₁, h₂, h₃⟩ :=
    flagPattern_match hquote h
  have ha : a = (dash ++ name) ++ sep ++ u := List.append_cancel_right (hmoved.1.symm.trans hmoved'.1)
  have hmarks : sep ≠ [] ∧ ∀ x ∈ sep, isMark x := by
    rcases hsep with rfl | ⟨hne, hspaces⟩
    · exact ⟨by simp, by decide⟩
    · exact ⟨hne, fun x hx => isMark_space (hspaces x hx)⟩
  exact keep_masks ha (by simp [h₁, h₂, h₃]) hmarks.1 hmarks.2
    (fun x hx => by simp [noSpace, value_no_space hu x hx]) (next_of_value (fun _ h => (isKeyChar_value h).1) htail)

theorem masks_queries : Masks noSpace queryPattern (keep [1, 2, 3] 2) := by
  intro c d a hquote h hmoved
  obtain ⟨mark, name, u, tail, -, -, -, hu, htail, hmoved', rfl, h₁, h₂, h₃⟩ := queryPattern_match h
  have ha : a = (mark :: name) ++ ['='] ++ u := by
    rw [List.append_cancel_right (hmoved.1.symm.trans hmoved'.1)]
    simp
  refine keep_masks ha (by simp [h₁, h₂, h₃]) (by simp) (by decide) (fun x hx => ?_)
    (next_of_value (fun _ h => (isKeyChar_value h).2.1) htail)
  have hvalue := hu x hx
  simp only [isQueryChar, Bool.and_eq_true] at hvalue
  exact hvalue.2

theorem masks_assignments : Masks noSpace assignmentPattern (keep [1, 2] 1) := by
  intro c d a hquote h hmoved
  obtain ⟨x, key, gap, sep, gap', u, tail, -, -, hgap, hsep, hgap', -, hu, htail, -, hmoved', rfl, h₁, h₂⟩ :=
    assignmentPattern_match hquote h
  have ha : a = (x :: key) ++ (gap ++ sep :: gap') ++ u :=
    List.append_cancel_right (hmoved.1.symm.trans hmoved'.1)
  refine keep_masks ha (by simp [h₁, h₂]) (by simp) ?_
    (fun x hx => by simp [noSpace, value_no_space hu x hx]) (next_of_value (fun _ h => (isKeyChar_value h).1) htail)
  rw [List.forall_mem_append, List.forall_mem_cons]
  exact ⟨fun y hy => isMark_space (hgap y hy), isMark_sep hsep, fun y hy => isMark_space (hgap' y hy)⟩

theorem masks_keywords : Masks noSpace (keywordPattern lib) (keywordPass lib).replace := by
  intro c d a _ h hmoved
  obtain ⟨w, gap, sep, gap', u, tail, -, -, -, hne, hgap', -, hu, htail, -, -, hmoved', rfl, h₁⟩ :=
    keywordPattern_match h
  refine .inr ⟨w ++ gap ++ sep, gap', u, [], ?_, by simp [keywordPass, h₁], hne,
    fun y hy => isMark_space (hgap' y hy), fun x hx => by simp [noSpace, secret_no_space hu x hx],
    next_of_value (fun _ h => (isKeyChar_value h).2.2.1) htail⟩
  rw [List.append_nil]
  exact List.append_cancel_right (hmoved.1.symm.trans hmoved'.1)

theorem masks_authorization :
    Masks (fun _ => true) (authorizationPattern lib) (authorizationPass lib).replace := by
  intro c d a hquote h hmoved
  obtain ⟨w, gap, sep, gap', u, more, -, -, hsep, hgap', -, -, -, -, htail, -, hmoved', h₁⟩ :=
    authorizationPattern_match hquote h
  refine .inr ⟨w ++ gap, sep :: gap', u ++ more, [], ?_, by simp [authorizationPass, h₁], by simp, ?_,
    fun _ _ => rfl, next_of_value (fun _ h => (isKeyChar_value h).2.2.2) htail⟩
  · rw [List.append_nil]
    exact List.append_cancel_right (hmoved.1.symm.trans hmoved'.1)
  · rw [List.forall_mem_cons]
    exact ⟨isMark_sep hsep, fun y hy => isMark_space (hgap' y hy)⟩

theorem masks_urls : Masks noSpace (urlPattern lib) (fun _ d => d.captured 1 ++ redacted ++ ['@']) := by
  intro c d a _ h hmoved
  obtain ⟨scheme, info, -, -, hinfo, hmoved', h₁⟩ := urlPattern_match h
  refine .inr ⟨scheme ++ [':'], ['/', '/'], info, ['@'], ?_, by simp [h₁], by simp, by decide,
    fun x hx => by simp [noSpace, hinfo x hx], by
      have hat : isKeyChar '@' = false := by decide
      simpa using hat⟩
  rw [List.append_cancel_right (hmoved.1.symm.trans hmoved'.1)]
  simp

end

theorem joined_parts (sep : Char) (s : Str) (ss : List Str) : joined [sep] (s :: ss) = s ++ partsAfter sep ss := by
  induction ss generalizing s with
  | nil => simp [joined, partsAfter]
  | cons t ss ih =>
    have hstep : joined [sep] (s :: t :: ss) = s ++ sep :: joined [sep] (t :: ss) := by
      simp [joined, List.intercalate_cons_cons]
    rw [hstep, ih, partsAfter]

/-- A text has its parts only once. -/
theorem parts_injective {sep : Char} {s t : Str} {ss ts : List Str} (hs : ∀ x ∈ s :: ss, sep ∉ x)
    (ht : ∀ x ∈ t :: ts, sep ∉ x) (h : s ++ partsAfter sep ss = t ++ partsAfter sep ts) : s = t ∧ ss = ts := by
  have hcut : ∀ {u : Str} (us : List Str), sep ∉ u → (u ++ partsAfter sep us).takeWhile (· != sep) = u := by
    intro u us hu
    refine takeWhile_stop (fun c hc => ?_) ?_
    · rw [bne_iff_ne]
      rintro rfl
      exact hu hc
    · cases us <;> simp [partsAfter]
  induction ss generalizing s t ts with
  | nil =>
    obtain rfl : s = t := by rw [← hcut [] (hs s (by simp)), h, hcut ts (ht t (by simp))]
    cases ts with
    | nil => exact ⟨rfl, rfl⟩
    | cons u ts => cases List.append_cancel_left h
  | cons u ss ih =>
    obtain rfl : s = t := by rw [← hcut (u :: ss) (hs s (by simp)), h, hcut ts (ht t (by simp))]
    have hrest := List.append_cancel_left h
    cases ts with
    | nil => cases hrest
    | cons v ts =>
      obtain ⟨rfl, rfl⟩ := ih (List.forall_mem_cons.1 hs).2 (List.forall_mem_cons.1 ht).2 (List.cons.inj hrest).2
      exact ⟨rfl, rfl⟩

/-- A substitution by a narrow pattern acts on every token of its own. -/
theorem sub_joined {r : Pattern} {f : Str → Cursor → Str} (hr : Narrow ' ' r) (hadvances : Advances r)
    (hf : ∀ behind ahead a d, f a (Cursor.within behind ahead d) = f a d) (ss : List Str) :
    sub r f (joined [' '] ss) = joined [' '] (ss.map (sub r f)) := by
  induction ss with
  | nil => exact (Substitutes.done (hadvances.at_end _)).sub_eq
  | cons s ss ih =>
    cases ss with
    | nil => simp [joined]
    | cons t ss =>
      have hjoined : ∀ x y (ts : List Str), joined [' '] (x :: y :: ts) = x ++ ' ' :: joined [' '] (y :: ts) :=
        fun x y ts => by simp [joined, List.intercalate_cons_cons]
      rw [hjoined, List.map_cons, List.map_cons, hjoined, ← List.map_cons, ← ih]
      exact sub_separator hr hadvances hf s (joined [' '] (t :: ss))

section
variable {p : Pass} {value : Char → Bool}

theorem sub_line (hp : p.Lawful ' ' IsToken) {ss : List Str} (hss : ∀ s ∈ ss, IsToken s) :
    sub p.pattern p.replace (joined [' '] ss) = joined [' '] (p.onParts ' ' none ss) := by
  cases ss with
  | nil => exact (Substitutes.done (hp.advances.at_end _)).sub_eq
  | cons s ss =>
    rw [List.forall_mem_cons] at hss
    rw [joined_parts, Pass.onParts_cons, joined_parts, hp.sub_parts hss.1 hss.2]

/-- The part of a token that a pass substitutes in. -/
theorem edit_rest (hm : Masks value p.pattern p.replace) (hadvances : Advances p.pattern) {c : Option Bool}
    {s : Str} (hs : IsToken s) : Edit (p.rest c s)
      (subFrom p.pattern p.replace (p.front c s).reverse (p.rest c s)) := by
  refine hm.edit (substitutes_subFrom hadvances _ _ _) fun x hx => (hs.chars x ?_).2
  rw [← p.take_front c s]
  exact List.mem_append_right _ hx

/-- What a pass makes of the first character of a token. -/
theorem onPart_head (hm : Masks value p.pattern p.replace) (hadvances : Advances p.pattern)
    (hnew : p.new = redacted) (htakes : p.takes '-' ∧ p.takes 'R') {c : Option Bool} {s : Str}
    (hs : IsToken s) : (p.onPart c s).head? = if c = some true then some 'R' else s.head? := by
  have hedit := edit_rest hm hadvances (c := c) hs
  obtain ⟨x, r, rfl, hx⟩ := hs.head
  have htake : p.takes x := by
    rcases hx with rfl | rfl
    · exact htakes.1
    · exact htakes.2
  cases c with
  | none => exact hedit.head_eq
  | some hides =>
    cases hides with
    | true =>
      rw [Pass.onPart, Pass.put, hnew]
      rfl
    | false =>
      have hput : p.put (some false) (x :: r) = x :: r.takeWhile p.takes :=
        List.takeWhile_cons_of_pos htake
      rw [Pass.onPart, hput]
      rfl

theorem IsToken.onPart (hm : Masks value p.pattern p.replace) (hadvances : Advances p.pattern)
    (hnew : p.new = redacted) (htakes : p.takes '-' ∧ p.takes 'R') {c : Option Bool} {s : Str}
    (hs : IsToken s) : IsToken (p.onPart c s) := by
  have hredacted : ∀ c ∈ redacted, isSpace c = false ∧ isQuote c = false := by decide
  have hpart : ∀ x ∈ p.rest c s, isSpace x = false ∧ isQuote x = false := by
    intro x hx
    refine hs.chars x ?_
    rw [← p.take_front c s]
    exact List.mem_append_right _ hx
  have hput : ∀ x ∈ p.put c s, isSpace x = false ∧ isQuote x = false := by
    intro x hx
    rcases c with _ | _ | _
    · cases hx
    · exact hs.chars x ((List.takeWhile_prefix _).subset hx)
    · rw [Pass.put, hnew] at hx
      exact hredacted x hx
  constructor
  · rw [Pass.onPart, List.forall_mem_append]
    exact ⟨hput, (edit_rest hm hadvances hs).chars hredacted hpart⟩
  · have hhead := onPart_head hm hadvances hnew htakes (c := c) hs
    obtain ⟨x, r, hsplit, hx⟩ := hs.head
    split_ifs at hhead with hhides
    · obtain ⟨r', hr'⟩ := List.head?_eq_some_iff.1 hhead
      exact ⟨'R', r', hr', .inr rfl⟩
    · have hfirst : s.head? = some x := by rw [hsplit, List.head?_cons]
      rw [hfirst] at hhead
      obtain ⟨r', hr'⟩ := List.head?_eq_some_iff.1 hhead
      exact ⟨x, r', hr', hx⟩

theorem tokens_onParts (hm : Masks value p.pattern p.replace) (hadvances : Advances p.pattern)
    (hnew : p.new = redacted) (htakes : p.takes '-' ∧ p.takes 'R') {first : Option Bool} {ss : List Str}
    (hss : ∀ s ∈ ss, IsToken s) : ∀ s ∈ p.onParts ' ' first ss, IsToken s := by
  induction ss generalizing first with
  | nil => nofun
  | cons s ss ih =>
    rw [List.forall_mem_cons] at hss
    rw [Pass.onParts_cons, List.forall_mem_cons]
    exact ⟨hss.1.onPart hm hadvances hnew htakes, ih hss.2⟩

end

end BitcoinRpcOperator.Redaction
