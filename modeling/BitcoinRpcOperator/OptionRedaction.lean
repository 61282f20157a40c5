import BitcoinRpcOperator.CommandLinePasses

/-!
# Options of a command line

What the passes for options, queries, assignments and keywords make of one option, and when it
comes out of them with its name and nothing of its value.
-/

namespace BitcoinRpcOperator.Redaction
open Text Backtracking PythonValues

def isOptionChar (c : Char) : Bool := c.isLower || c.isDigit || c == '_' || c == '.' || c == '-'

def isArgumentChar (c : Char) : Bool := !isSpace c && !isQuote c && !isOpener c

/-- A token of a command line: an option, with a value unless it is a switch. -/
structure Token where
  double : Bool
  name : Str
  value : Option Str
  name_ne : name ≠ []
  name_chars : ∀ c ∈ name, isOptionChar c
  value_ne : value ≠ some []
  value_chars : ∀ v ∈ value, ∀ c ∈ v, isArgumentChar c

namespace Token

def head (t : Token) : Str := (if t.double then "--".toList else ['-']) ++ t.name

def text (t : Token) : Str :=
  match t.value with
  | none => t.head
  | some v => t.head ++ '=' :: v

/-- An option with a sensitive name and a value. -/
def isSecret (t : Token) : Bool := t.value.isSome && keyIsSensitive t.name

/-- What is to become of an option with a sensitive name. -/
def masked (t : Token) : Str := t.head ++ '=' :: redacted

end Token

theorem isOptionChar_isNameChar {c : Char} (h : isOptionChar c) : isNameChar c := by
  simp only [isOptionChar, Bool.or_eq_true, beq_iff_eq] at h
  rcases h with (((h | h) | rfl) | rfl) | rfl
  · simp [isNameChar, isLetter, Char.isAlpha, h]
  · simp [isNameChar, h]
  all_goals decide

namespace Token

theorem head_names (t : Token) : ∀ c ∈ t.head, isNameChar c := by
  rw [head, List.forall_mem_append]
  refine ⟨?_, fun c hc => isOptionChar_isNameChar (t.name_chars c hc)⟩
  split_ifs <;> decide

theorem head_cons (t : Token) : ∃ r, t.head = '-' :: r := by
  rw [head]
  split_ifs
  · exact ⟨'-' :: t.name, rfl⟩
  · exact ⟨t.name, rfl⟩

theorem head_split (t : Token) : ∃ r, t.head = '-' :: r ∧ r ≠ [] := by
  rw [head]
  split_ifs
  · exact ⟨'-' :: t.name, rfl, List.cons_ne_nil _ _⟩
  · exact ⟨t.name, rfl, t.name_ne⟩

/-- The dashes do not count in a key. -/
theorem head_sensitive (t : Token) : keyIsSensitive t.head = keyIsSensitive t.name := by
  have hdash : foldChar '-' = [] := by decide
  rw [keyIsSensitive, keyIsSensitive, head]
  split_ifs <;> simp [hdash]

theorem text_chars (t : Token) : ∀ c ∈ t.text, isSpace c = false ∧ isQuote c = false ∧ isOpener c = false := by
  have hname : ∀ c ∈ t.head, isSpace c = false ∧ isQuote c = false ∧ isOpener c = false := by
    intro c hc
    obtain ⟨hspace, -, -, hquote, hopener, -⟩ := isNameChar_cases (t.head_names c hc)
    exact ⟨hspace, hquote, hopener⟩
  cases hvalue : t.value with
  | none =>
    rw [text, hvalue]
    exact hname
  | some v =>
    rw [text, hvalue, List.forall_mem_append, List.forall_mem_cons]
    refine ⟨hname, by decide, fun c hc => ?_⟩
    have hchar := t.value_chars v hvalue c hc
    simpa [isArgumentChar, and_assoc] using hchar

theorem text_cons (t : Token) : ∃ r, t.text = '-' :: r := by
  obtain ⟨r, hr⟩ := t.head_cons
  rw [text]
  cases t.value with
  | none => exact ⟨r, hr⟩
  | some v => exact ⟨r ++ '=' :: v, by simp [hr]⟩

theorem isToken_text (t : Token) : IsToken t.text := by
  obtain ⟨r, hr⟩ := t.text_cons
  exact ⟨fun c hc => ⟨(t.text_chars c hc).1, (t.text_chars c hc).2.1⟩, '-', r, hr, .inl rfl⟩

end Token

theorem edit_queries {s : Str} (hs : ∀ c ∈ s, isQuote c = false) : Edit s (redactQueries s) :=
  masks_queries.edit (substitutes_subFrom (advances_of_consumes rfl) _ _ _) hs

/-- A substitution that leaves its matches where they stand in the text, before and after,
leaves the text. -/
theorem substitutes_same {r : Pattern} {f : Str → Cursor → Str} {m passed s out : Str}
    (hsame : ∀ {passed a s z : Str} {d : Cursor}, (∀ c ∈ a ++ s, isQuote c = false) →
      matchAt r ⟨passed, a ++ s, []⟩ = some d → d.rest = s →
      passed.reverse ++ (a ++ z) = m ∨ passed.reverse ++ (f a d ++ z) = m → f a d = a)
    (h : Substitutes r f passed s out) (hquote : ∀ c ∈ s, isQuote c = false)
    (hm : passed.reverse ++ s = m ∨ passed.reverse ++ out = m) : out = s := by
  induction h with
  | done => rfl
  | @skip passed s out x _ _ ih =>
    rw [List.forall_mem_cons] at hquote
    rw [ih hquote.2 (by simpa using hm)]
  | @hit passed a s out d hsome _ hd _ ih =>
    have heq : f a d = a := by
      rcases hm with hm | hm
      · exact hsame hquote hsome hd (.inl hm)
      · exact hsame hquote hsome hd (.inr hm)
    have hmoved : d.passed = a.reverse ++ passed := (moved_of_rest hsome (by rw [hd]) : Cursor.Moved _ a d).2
    rw [heq] at hm ⊢
    rw [ih (List.forall_mem_append.1 hquote).2 (by simpa [hmoved] using hm)]

namespace Token
variable {t : Token}

theorem masked_eq (t : Token) : t.masked = t.head ++ '=' :: redacted := rfl

theorem masked_cons (t : Token) : ∃ r, t.masked = '-' :: r := by
  obtain ⟨r, hr⟩ := t.head_cons
  exact ⟨r ++ '=' :: redacted, by simp [masked, hr]⟩

theorem masked_chars (t : Token) : ∀ c ∈ t.masked, isValueChar c ∧ c ≠ '?' ∧ c ≠ '&' := by
  rw [masked, List.forall_mem_append]
  refine ⟨fun c hc => ?_, by decide⟩
  obtain ⟨hspace, -, hstop, -⟩ := isNameChar_cases (t.head_names c hc)
  refine ⟨by simp [isValueChar, hspace, hstop], ?_, ?_⟩
  all_goals
    rintro rfl
    exact absurd (t.head_names _ hc) (by decide)

/-- The only separator of a hidden option is the one behind its name. -/
theorem masked_sep {front back : Str} {c : Char} (hc : isSep c) (h : front ++ c :: back = t.masked) :
    front = t.head ∧ c = '=' ∧ back = redacted := by
  have hhead : ∀ x ∈ t.head, isSep x = false := fun x hx => (isNameChar_cases (t.head_names x hx)).2.1
  rcases List.append_eq_append_iff.1 h with ⟨w, hw, hback⟩ | ⟨w, rfl, hback⟩
  · cases w with
    | nil =>
      obtain ⟨rfl, rfl⟩ := List.cons.inj hback
      exact ⟨by simpa using hw.symm, rfl, rfl⟩
    | cons x w =>
      obtain ⟨rfl, -⟩ := List.cons.inj hback
      rw [hhead c (by simp [hw])] at hc
      cases hc
  · cases w with
    | nil =>
      obtain ⟨rfl, rfl⟩ := List.cons.inj hback
      exact ⟨by simp, rfl, rfl⟩
    | cons x w =>
      obtain ⟨rfl, hredacted⟩ := List.cons.inj hback
      have hmem : c ∈ redacted := by
        rw [show redacted = w ++ c :: back from hredacted]
        simp
      have hnone : ∀ x ∈ redacted, isSep x = false := by decide
      rw [hnone c hmem] at hc
      cases hc

end Token

section
variable {t : Token}

theorem masked_token (t : Token) : IsToken t.masked := by
  obtain ⟨r, hr⟩ := t.masked_cons
  refine ⟨fun c hc => ?_, '-', r, hr, .inl rfl⟩
  rw [Token.masked, List.mem_append] at hc
  rcases hc with hc | hc
  · obtain ⟨hspace, -, -, hquote, -⟩ := isNameChar_cases (t.head_names c hc)
    exact ⟨hspace, hquote⟩
  · have hredacted : ∀ c ∈ '=' :: redacted, isSpace c = false ∧ isQuote c = false := by decide
    exact hredacted c hc

theorem queries_same {passed a s z : Str} {d : Cursor}
    (h : matchAt queryPattern ⟨passed, a ++ s, []⟩ = some d) (hd : d.rest = s)
    (hm : passed.reverse ++ (a ++ z) = t.masked ∨ passed.reverse ++ (keep [1, 2, 3] 2 a d ++ z) = t.masked) :
    keep [1, 2, 3] 2 a d = a := by
  subst hd
  obtain ⟨mark, name, u, tail, hmark, -, -, -, -, hmoved, -, h₁, -⟩ := queryPattern_match h
  have ha : a = mark :: name ++ '=' :: u :=
    List.append_cancel_right (hmoved.1 : a ++ d.rest = _)
  have hmem : mark ∈ t.masked := by
    rcases hm with hm | hm
    · rw [← hm, ha]
      simp
    · rw [← hm, keep]
      split_ifs
      · simp [h₁]
      · simp [ha]
  obtain ⟨-, hquestion, hand⟩ := t.masked_chars mark hmem
  exact absurd hmark (by simp [hquestion, hand])

theorem assignments_same {passed a s z : Str} {d : Cursor} (hquote : ∀ c ∈ a ++ s, isQuote c = false)
    (h : matchAt assignmentPattern ⟨passed, a ++ s, []⟩ = some d) (hd : d.rest = s)
    (hm : passed.reverse ++ (a ++ z) = t.masked ∨ passed.reverse ++ (keep [1, 2] 1 a d ++ z) = t.masked) :
    keep [1, 2] 1 a d = a := by
  subst hd
  obtain ⟨x, key, gap, sep, gap', u, tail, hx, -, -, hsep, -, -, -, -, hbehind, hmoved, -, h₁, h₂⟩ :=
    assignmentPattern_match hquote h
  have ha : a = x :: key ++ (gap ++ sep :: gap') ++ u :=
    List.append_cancel_right (hmoved.1 : a ++ d.rest = _)
  -- The key would be the name of the option, which starts with a dash.
  obtain ⟨y, hy⟩ : ∃ y, (passed.reverse ++ (x :: key ++ gap)) ++ sep :: y = t.masked := by
    rcases hm with hm | hm
    · exact ⟨gap' ++ u ++ z, by rw [← hm, ha]; simp⟩
    · rw [keep] at hm
      split_ifs at hm
      · exact ⟨gap' ++ redacted ++ z, by rw [← hm]; simp [h₁, h₂]⟩
      · exact ⟨gap' ++ u ++ z, by rw [← hm, ha]; simp⟩
  obtain ⟨hfront, -⟩ := Token.masked_sep hsep hy
  exfalso
  cases passed with
  | nil =>
    obtain ⟨r, hr⟩ := t.head_cons
    rw [hr] at hfront
    obtain ⟨rfl, -⟩ := List.cons.inj hfront
    exact absurd hx (by decide)
  | cons c passed =>
    have hname := t.head_names c (by rw [← hfront]; simp)
    have hnot : isNameChar c = false := by simpa using hbehind
    rw [hname] at hnot
    cases hnot

/-- What starts with `REDACTED` is no hidden option. -/
theorem onPart_not_dash {p : Pass} {value : Char → Bool} (hm : Masks value p.pattern p.replace)
    (hadvances : Advances p.pattern) (hnew : p.new = redacted) (htakes : p.takes '-' ∧ p.takes 'R')
    {c : Option Bool} {s : Str} (hs : IsToken s) (hhead : c = some true ∨ s.head? = some 'R') :
    p.onPart c s ≠ t.masked := by
  intro heq
  obtain ⟨r, hr⟩ := t.masked_cons
  have hfirst := onPart_head hm hadvances hnew htakes (c := c) hs
  rw [heq, hr, List.head?_cons] at hfirst
  rcases hhead with rfl | hhead
  · simp at hfirst
  · rw [hhead, ite_self] at hfirst
    simp at hfirst

theorem redactQueries_masked {s : Str} (hs : IsToken s) : redactQueries s = t.masked ↔ s = t.masked := by
  have hsub : Substitutes queryPattern (keep [1, 2, 3] 2) [] s (redactQueries s) :=
    substitutes_subFrom (advances_of_consumes rfl) _ _ _
  have hquote : ∀ c ∈ s, isQuote c = false := fun c hc => (hs.chars c hc).2
  have hsame := fun hm => substitutes_same (m := t.masked) (fun _ h hd hm => queries_same h hd hm) hsub hquote hm
  constructor
  · intro h
    rw [← hsame (.inr h), h]
  · intro h
    rw [hsame (.inl h), h]

/-- A pass that leaves its matches in a hidden option leaves the option, unless something
reaches into it. -/
theorem onPart_masked {p : Pass} (hadvances : Advances p.pattern)
    (hsame : ∀ {passed a s z : Str} {d : Cursor}, (∀ c ∈ a ++ s, isQuote c = false) →
      matchAt p.pattern ⟨passed, a ++ s, []⟩ = some d → d.rest = s →
      passed.reverse ++ (a ++ z) = t.masked ∨ passed.reverse ++ (p.replace a d ++ z) = t.masked →
      p.replace a d = a)
    {carry : Option Bool} (hcarry : carry ≠ some true) {s : Str} (hs : IsToken s) :
    p.onPart carry s = t.masked ↔ s = t.masked := by
  have hsub := substitutes_subFrom hadvances p.replace (p.front carry s).reverse (p.rest carry s)
  have hput : p.put carry s = p.front carry s := by
    rcases carry with _ | _ | _
    · rfl
    · rfl
    · exact absurd rfl hcarry
  have hquote : ∀ c ∈ p.rest carry s, isQuote c = false := by
    intro c hc
    refine (hs.chars c ?_).2
    rw [← p.take_front carry s]
    exact List.mem_append_right _ hc
  have hsplit := p.take_front carry s
  rw [Pass.onPart, hput]
  constructor
  · intro h
    have hrest := substitutes_same hsame hsub hquote (.inr (by rw [List.reverse_reverse, h]))
    rw [hrest, hsplit] at h
    exact h
  · intro h
    have hrest := substitutes_same hsame hsub hquote (.inl (by rw [List.reverse_reverse, hsplit, h]))
    rw [hrest, hsplit, h]

theorem onPart_masked_iff {p : Pass} {value : Char → Bool} (hm : Masks value p.pattern p.replace)
    (hadvances : Advances p.pattern) (hnew : p.new = redacted) (htakes : p.takes '-' ∧ p.takes 'R')
    (hsame : ∀ {passed a s z : Str} {d : Cursor}, (∀ c ∈ a ++ s, isQuote c = false) →
      matchAt p.pattern ⟨passed, a ++ s, []⟩ = some d → d.rest = s →
      passed.reverse ++ (a ++ z) = t.masked ∨ passed.reverse ++ (p.replace a d ++ z) = t.masked →
      p.replace a d = a)
    {c : Option Bool} {s : Str} (hs : IsToken s) :
    p.onPart c s = t.masked ↔ c ≠ some true ∧ s = t.masked := by
  by_cases hc : c = some true
  · have hnot := onPart_not_dash (t := t) hm hadvances hnew htakes (c := c) hs (.inl hc)
    simp [hc] at hnot ⊢
    exact hnot
  · rw [onPart_masked hadvances hsame hc hs]
    simp [hc]

theorem keywords_same {lib : Library} {passed a s z : Str} {d : Cursor}
    (h : matchAt (keywordPattern lib) ⟨passed, a ++ s, []⟩ = some d) (hd : d.rest = s)
    (hm : passed.reverse ++ (a ++ z) = t.masked ∨
      passed.reverse ++ ((keywordPass lib).replace a d ++ z) = t.masked) :
    (keywordPass lib).replace a d = a := by
  subst hd
  obtain ⟨w, gap, sep, gap', u, tail, -, -, -, hne, hgap', -, -, -, -, -, hmoved, -, h₁⟩ := keywordPattern_match h
  have ha : a = w ++ gap ++ sep ++ gap' ++ u := List.append_cancel_right (hmoved.1 : a ++ d.rest = _)
  obtain ⟨x, gap', rfl⟩ := List.exists_cons_of_ne_nil hne
  have hmem : x ∈ t.masked := by
    rcases hm with hm | hm
    · rw [← hm, ha]
      simp
    · rw [← hm, keywordPass]
      simp [h₁]
  have hvalue := (t.masked_chars x hmem).1
  simp only [isValueChar, hgap' x (by simp)] at hvalue
  exact absurd hvalue (by simp)

theorem keyIsSensitive_dashes {dash name : Str} (h : ∀ c ∈ dash, c = '-') :
    keyIsSensitive (dash ++ name) = keyIsSensitive name := by
  have hfold : dash.flatMap foldChar = [] := by
    rw [List.flatMap_eq_nil_iff]
    intro c hc
    rw [h c hc]
    decide
  rw [keyIsSensitive, keyIsSensitive, List.flatMap_append, hfold, List.nil_append]

/-- The option pattern on an option. -/
theorem flag_at_option (t : Token) {v : Str} (hv : IsToken (t.head ++ '=' :: v)) {d : Cursor}
    (h : matchAt flagPattern ⟨[], t.head ++ '=' :: v, []⟩ = some d) :
    d.captured 1 ++ d.captured 2 = t.head ∧ d.captured 3 = ['='] ∧
      keyIsSensitive (d.captured 2) = keyIsSensitive t.name ∧
      ∃ u, v = u ++ d.rest ∧ u ≠ [] ∧ (∀ c ∈ u, isValueChar c) ∧ d.rest.head?.any isValueChar = false := by
  obtain ⟨dash, name, sep, u, tail, hdash, -, hname, hsep, hne, hu, htail, -, ⟨hrest, -⟩, rfl, h₁, h₂, h₃⟩ :=
    flagPattern_match (fun c hc => (hv.chars c hc).2) h
  have htext : t.head ++ '=' :: v = dash ++ name ++ sep ++ u ++ d.rest := hrest
  obtain rfl : sep = ['='] := by
    refine hsep.resolve_right fun ⟨hne, hspaces⟩ => ?_
    obtain ⟨x, sep, rfl⟩ := List.exists_cons_of_ne_nil hne
    have hx := hv.no_space x (by rw [htext]; simp)
    rw [hspaces x (by simp)] at hx
    cases hx
  have hnames := flag_names hdash hname
  have hsplit : t.head ++ '=' :: v = (dash ++ name) ++ '=' :: (u ++ d.rest) := by
    rw [htext]
    simp
  have hequals : isNameChar '=' = false := by decide
  have hhead : t.head = dash ++ name := by
    have hleft : (t.head ++ '=' :: v).takeWhile isNameChar = t.head := takeWhile_stop t.head_names (by simp [hequals])
    have hright : ((dash ++ name) ++ '=' :: (u ++ d.rest)).takeWhile isNameChar = dash ++ name :=
      takeWhile_stop hnames (by simp [hequals])
    rw [← hleft, hsplit, hright]
  rw [hhead] at hsplit
  have hvalue := (List.cons.inj (List.append_cancel_left hsplit)).2
  have hkey : keyIsSensitive (dash ++ name) = keyIsSensitive name :=
    keyIsSensitive_dashes (by rcases hdash with rfl | rfl <;> simp)
  refine ⟨by rw [h₁, h₂, hhead], h₃, ?_, u, hvalue, hne, hu, htail⟩
  rw [h₂, ← hkey, ← hhead, t.head_sensitive]

/-- An option with a value that starts with no stop is found. -/
theorem flag_found (t : Token) {v : Str} (hv : v.head?.any isValueChar) :
    ∃ d, matchAt flagPattern ⟨[], t.head ++ '=' :: v, []⟩ = some d := by
  obtain ⟨x, v, rfl⟩ : ∃ x r, v = x :: r := by
    cases v with
    | nil => cases hv
    | cons x r => exact ⟨x, r, rfl⟩
  have hx : isValueChar x := by simpa using hv
  obtain ⟨r, hr, hrne⟩ := t.head_split
  have hrnames : ∀ c ∈ r, isNameChar c := fun c hc => t.head_names c (by rw [hr]; simp [hc])
  rw [hr]
  obtain ⟨d, hd⟩ : ∃ d, Matches flagPattern ⟨[], '-' :: (r ++ '=' :: x :: v), []⟩ d := by
    refine ⟨_, _, ⟨rfl, rfl⟩, _, ⟨_, ⟨_, ⟨'-', _, rfl, rfl, rfl⟩, .inr rfl⟩, rfl⟩, _,
      ⟨_, matches_plus_run hrne hrnames _ _ _, rfl⟩, _, ⟨_, .inl ⟨'=', _, rfl, rfl, rfl⟩, rfl⟩, _,
      ⟨_, .inr (.inr ⟨_, ⟨x, v, rfl, hx, rfl⟩, .refl⟩), rfl⟩, rfl⟩
  exact matchAt_isSome rfl hd

theorem option_value (t : Token) {v : Str} (hv : IsToken (t.head ++ '=' :: v))
    (h : ∀ c ∈ t.head ++ '=' :: v, isStop c = false) : ∀ c ∈ t.head ++ '=' :: v, isValueChar c := by
  intro c hc
  simp [isValueChar, hv.no_space c hc, h c hc]

/-- The option pattern takes an option whose value has no stop. -/
theorem flag_takes_option (t : Token) {v : Str} (hv : IsToken (t.head ++ '=' :: v)) (hne : v ≠ [])
    (hall : ∀ c ∈ t.head ++ '=' :: v, isValueChar c) :
    ∃ d, matchAt flagPattern ⟨[], t.head ++ '=' :: v, []⟩ = some d ∧ d.rest = [] := by
  obtain ⟨x, r, rfl⟩ := List.exists_cons_of_ne_nil hne
  obtain ⟨d, hd⟩ := flag_found t (v := x :: r) (by simpa using hall x (by simp))
  refine ⟨d, hd, ?_⟩
  obtain ⟨-, -, -, u, hvalue, -, -, htail⟩ := flag_at_option t hv hd
  cases hrest : d.rest with
  | nil => rfl
  | cons y r' =>
    have hy := hall y (by rw [hvalue, hrest]; simp)
    simp [hrest, hy] at htail

/-- Where the text starts with nothing that matches, a substitution goes on behind it. -/
theorem subFrom_front {r : Pattern} {f : Str → Cursor → Str} (hr : Advances r) {a s passed : Str}
    (ha : ∀ front x back, a = front ++ x :: back →
      matchAt r ⟨front.reverse ++ passed, x :: back ++ s, []⟩ = none) :
    subFrom r f passed (a ++ s) = a ++ subFrom r f (a.reverse ++ passed) s :=
  (Substitutes.keeps_front ha (substitutes_subFrom hr f _ s)).subFuel_eq _ (Nat.lt_succ_self _)

theorem subFrom_hit {r : Pattern} {f : Str → Cursor → Str} (hr : Advances r) {a s passed : Str} {d : Cursor}
    (h : matchAt r ⟨passed, a ++ s, []⟩ = some d) (hd : d.rest = s) :
    subFrom r f passed (a ++ s) = f a d ++ subFrom r f d.passed s := by
  have hless := hr _ _ h
  have hne : a ≠ [] := by
    rintro rfl
    rw [hd] at hless
    exact lt_irrefl _ hless
  exact (Substitutes.hit h hne hd (substitutes_subFrom hr f _ s)).subFuel_eq _ (Nat.lt_succ_self _)

/-- The stops of an option are those of its value. -/
theorem option_unstopped (t : Token) {v : Str} (hv : IsToken (t.head ++ '=' :: v)) :
    (∀ c ∈ t.head ++ '=' :: v, isStop c = false) ↔ ∀ c ∈ v, isValueChar c := by
  rw [List.forall_mem_append, List.forall_mem_cons]
  constructor
  · intro h c hc
    have hspace := hv.no_space c (by simp [hc])
    simp [isValueChar, hspace, h.2.2 c hc]
  · intro h
    refine ⟨fun c hc => (isNameChar_cases (t.head_names c hc)).2.2.1, by decide, fun c hc => ?_⟩
    have hvalue := h c hc
    simp only [isValueChar, Bool.and_eq_true, Bool.not_eq_true'] at hvalue
    exact hvalue.2

/-- An option that is found hides its value up to the first stop. -/
theorem flags_of_found (ht : keyIsSensitive t.name) {v : Str} (hv : IsToken (t.head ++ '=' :: v))
    (hfirst : v.head?.any isValueChar) :
    subFrom flagPattern (keep [1, 2, 3] 2) [] (t.head ++ '=' :: v) = t.masked ↔ ∀ c ∈ v, isValueChar c := by
  have hadvances : Advances flagPattern := advances_of_consumes rfl
  obtain ⟨d, h⟩ := flag_found t hfirst
  obtain ⟨hnames, h₃, hkey, u, hvalue, -, hu, htail⟩ := flag_at_option t hv h
  have hsensitive : keyIsSensitive (d.captured 2) := hkey.trans ht
  have hreplace : keep [1, 2, 3] 2 (t.head ++ '=' :: u) d = t.masked := by
    rw [keep, if_pos hsensitive, Token.masked_eq, ← hnames]
    simp [h₃]
  have hsplit : t.head ++ '=' :: v = (t.head ++ '=' :: u) ++ d.rest := by
    rw [hvalue]
    simp
  rw [hsplit] at h ⊢
  rw [subFrom_hit hadvances h rfl, hreplace]
  have hedit : Edit d.rest (subFrom flagPattern (keep [1, 2, 3] 2) d.passed d.rest) := by
    refine masks_flags.edit (substitutes_subFrom hadvances _ _ _) fun c hc => (hv.chars c ?_).2
    rw [hsplit]
    exact List.mem_append_right _ hc
  constructor
  · intro hout
    have hnil : subFrom flagPattern (keep [1, 2, 3] 2) d.passed d.rest = [] := by simpa using hout
    rw [hnil] at hedit
    have hrest : d.rest = [] := List.head?_eq_none_iff.1 hedit.head_eq.symm
    rw [hvalue, hrest, List.append_nil]
    exact hu
  · intro hall
    have hrest : d.rest = [] := by
      cases hrest : d.rest with
      | nil => rfl
      | cons x r =>
        rw [hrest] at htail hvalue
        have hx := hall x (by rw [hvalue]; simp)
        simp [hx] at htail
    rw [hrest]
    simp [subFrom, subFuel, hadvances.at_end]

/-- Before a stop the option pattern matches nowhere in the name. -/
theorem flag_missed (t : Token) {x : Char} {r : Str} (hv : IsToken (t.head ++ '=' :: x :: r))
    (hx : isValueChar x = false) {front : Str} {y : Char} {back : Str}
    (hsplit : t.head ++ ['='] = front ++ y :: back) :
    matchAt flagPattern ⟨front.reverse, y :: back ++ x :: r, []⟩ = none := by
  refine matchAt_none fun d h => ?_
  cases front with
  | nil =>
    have htext : y :: back ++ x :: r = t.head ++ '=' :: x :: r := by
      rw [List.nil_append] at hsplit
      rw [← hsplit]
      simp
    rw [htext] at h
    obtain ⟨-, -, -, u, hvalue, hune, hu, -⟩ := flag_at_option t hv h
    obtain ⟨z, u, rfl⟩ := List.exists_cons_of_ne_nil hune
    obtain ⟨rfl, -⟩ := List.cons.inj hvalue
    rw [hu x (by simp)] at hx
    cases hx
  | cons c front =>
    -- Behind a character of the name the pattern does not start, and only the `=` is none.
    obtain ⟨front', z, hlast⟩ := (List.eq_nil_or_concat (c :: front)).resolve_left (List.cons_ne_nil _ _)
    rw [List.concat_eq_append] at hlast
    rw [hlast] at hsplit h
    have hquote : ∀ w ∈ y :: back ++ x :: r, isQuote w = false := by
      intro w hw
      refine (hv.chars w ?_).2
      have hwhole : t.head ++ '=' :: x :: r = (front' ++ [z]) ++ (y :: back ++ x :: r) := by
        rw [← List.append_assoc, ← hsplit]
        simp
      rw [hwhole]
      exact List.mem_append_right _ hw
    obtain ⟨-, -, -, -, -, -, -, -, -, -, -, -, hbehind, -⟩ := flagPattern_match hquote h
    have hz : isNameChar z = false := by simpa using hbehind
    have hmem : z ∈ t.head ++ ['='] := by
      rw [hsplit]
      simp
    rcases List.mem_append.1 hmem with hmem | hmem
    · rw [t.head_names z hmem] at hz
      cases hz
    · obtain rfl : z = '=' := by simpa using hmem
      have hwhole : t.head ++ ['='] = front' ++ '=' :: y :: back := by simpa using hsplit
      have hhead : ∀ y ∈ t.head, isSep y = false := fun y hy => (isNameChar_cases (t.head_names y hy)).2.1
      have hnil := sep_last hhead (by decide) hwhole
      cases hnil

/-- A value that starts with a stop keeps the stop. -/
theorem flags_of_stop (t : Token) {x : Char} {r : Str} (hv : IsToken (t.head ++ '=' :: x :: r))
    (hx : isValueChar x = false) :
    subFrom flagPattern (keep [1, 2, 3] 2) [] (t.head ++ '=' :: x :: r) ≠ t.masked := by
  have hadvances : Advances flagPattern := advances_of_consumes rfl
  have hsplit : t.head ++ '=' :: x :: r = (t.head ++ ['=']) ++ x :: r := by simp
  have hedit : Edit (x :: r) (subFrom flagPattern (keep [1, 2, 3] 2) ((t.head ++ ['=']).reverse ++ []) (x :: r)) :=
    masks_flags.edit (substitutes_subFrom hadvances _ _ _) fun c hc => (hv.chars c (by simp at hc; simp [hc])).2
  have hnone : ∀ front y back, t.head ++ ['='] = front ++ y :: back →
      matchAt flagPattern ⟨front.reverse ++ [], y :: back ++ x :: r, []⟩ = none := by
    intro front y back hsplit
    rw [List.append_nil]
    exact flag_missed t hv hx hsplit
  intro hout
  rw [hsplit, subFrom_front hadvances hnone, Token.masked_eq] at hout
  have hvalue : subFrom flagPattern (keep [1, 2, 3] 2) ((t.head ++ ['=']).reverse ++ []) (x :: r) = redacted := by
    simpa using hout
  rw [hvalue] at hedit
  obtain rfl : 'R' = x := Option.some.inj hedit.head_eq
  exact absurd hx (by decide)

/-- A sensitive option that nothing reaches into is hidden if there is no stop in it. -/
theorem flags_alone (ht : keyIsSensitive t.name) {v : Str} (hv : IsToken (t.head ++ '=' :: v)) (hne : v ≠ []) :
    flagPass.onPart none (t.head ++ '=' :: v) = t.masked ↔ ∀ c ∈ t.head ++ '=' :: v, isStop c = false := by
  rw [option_unstopped t hv]
  change subFrom flagPattern (keep [1, 2, 3] 2) [] (t.head ++ '=' :: v) = _ ↔ _
  by_cases hfirst : v.head?.any isValueChar
  · exact flags_of_found ht hv hfirst
  · obtain ⟨x, r, rfl⟩ := List.exists_cons_of_ne_nil hne
    have hx : isValueChar x = false := by simpa using hfirst
    refine iff_of_false (flags_of_stop t hv hx) fun hall => ?_
    rw [hall x (by simp)] at hx
    cases hx

/-- What a switch takes that is not sensitive stays up to a stop. -/
theorem flags_taken {s : Str} (hs : IsToken s) : flagPass.onPart (some false) s = t.masked ↔ s = t.masked := by
  have hedit := @edit_rest flagPass noSpace masks_flags (advances_of_consumes rfl) (some false) s hs
  have hsplit : s.takeWhile isValueChar ++ s.dropWhile isValueChar = s := List.takeWhile_append_dropWhile
  have hstop := head_dropWhile isValueChar s
  change Edit (s.dropWhile isValueChar) (subFrom flagPattern (keep [1, 2, 3] 2)
    (s.takeWhile isValueChar).reverse (s.dropWhile isValueChar)) at hedit
  change s.takeWhile isValueChar ++ subFrom flagPattern (keep [1, 2, 3] 2)
    (s.takeWhile isValueChar).reverse (s.dropWhile isValueChar) = _ ↔ _
  constructor
  · intro hout
    have hnil : s.dropWhile isValueChar = [] := by
      cases hdrop : s.dropWhile isValueChar with
      | nil => rfl
      | cons x r =>
        rw [hdrop] at hedit hout hstop
        obtain ⟨r', hr'⟩ := List.head?_eq_some_iff.1 hedit.head_eq
        have hvalue := (t.masked_chars x (by rw [← hout, hr']; simp)).1
        simp [hvalue] at hstop
    rw [hnil] at hedit hout hsplit
    rw [List.head?_eq_none_iff.1 hedit.head_eq, List.append_nil] at hout
    rw [← hsplit, List.append_nil, hout]
  · intro heq
    have hall : s.takeWhile isValueChar = s :=
      List.takeWhile_eq_self_iff.2 fun c hc => (t.masked_chars c (by rw [← heq]; exact hc)).1
    have hnil : s.dropWhile isValueChar = [] :=
      List.dropWhile_eq_nil_iff.2 fun c hc => (t.masked_chars c (by rw [← heq]; exact hc)).1
    have hend : subFrom flagPattern (keep [1, 2, 3] 2) s.reverse [] = [] :=
      (Substitutes.done ((advances_of_consumes rfl : Advances flagPattern).at_end _)).subFuel_eq _
        (Nat.lt_succ_self _)
    rw [hall, hnil, hend, List.append_nil, heq]

end

end BitcoinRpcOperator.Redaction
