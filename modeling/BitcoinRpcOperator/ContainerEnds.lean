import BitcoinRpcOperator.LiteralRedaction

/-!
# The end of a container by its index

`_container_end` as it works on a string and an index, with the accesses that can fail. The
scan stays in step with the strings and brackets of JSON texts and of Python literals, and
what it finds is always a span with its brackets in pairs.
-/

namespace BitcoinRpcOperator.Redaction
open Text PythonValues

/-- A failing access to a dictionary, or to a string or list. -/
inductive LookupError where
  | keyError | indexError
  deriving DecidableEq, Repr

/-- The loop of `_container_end` from `index` on. -/
def scanFrom : List Char → Option Char → Bool → ℕ → Str → Except LookupError (Option ℕ)
  | _, _, _, _, [] => .ok none
  | stack, quote, escaped, index, c :: rest =>
    match quotedCharState c quote escaped with
    | (quote, escaped, true) => scanFrom stack quote escaped (index + 1) rest
    | (quote, escaped, false) =>
      match closer c with
      | some close => scanFrom (close :: stack) quote escaped (index + 1) rest
      | none =>
        if c == '\x7d' || c == ']' then
          match stack with
          | [] => .error .indexError
          | top :: below =>
            if c != top then .ok none
            else if below.isEmpty then .ok (some index)
            else scanFrom below quote escaped (index + 1) rest
        else scanFrom stack quote escaped (index + 1) rest

def containerEndAt (value : Str) (start : ℕ) : Except LookupError (Option ℕ) :=
  match value.drop start with
  | [] => .error .indexError
  | c :: rest =>
    match closer c with
    | none => .error .keyError
    | some close => scanFrom [close] none false (start + 1) rest

/-- With something on the stack, the scan by index does what the scan of the redactor does. -/
theorem scanFrom_eq {stack : List Char} (hstack : stack ≠ []) (quote : Option Char) (escaped : Bool)
    (index : ℕ) (s : Str) : scanFrom stack quote escaped (index + 1) s =
      .ok ((scanContainer stack quote escaped s).map (index + ·)) := by
  induction s generalizing stack quote escaped index with
  | nil => rfl
  | cons c rest ih =>
    have hnext : ∀ n : Option ℕ, n.map (index + 1 + ·) = (n.map (· + 1)).map (index + ·) := by
      intro n
      rw [Option.map_map]
      congr 1
      funext k
      simp only [Function.comp_apply]
      omega
    rw [scanFrom, scanContainer]
    rcases hstate : quotedCharState c quote escaped with ⟨quote', escaped', _ | _⟩
    · cases hcloser : closer c with
      | some close =>
        simp only
        rw [ih (List.cons_ne_nil _ _), hnext]
      | none =>
        simp only
        by_cases hclose : c == '\x7d' || c == ']'
        · rw [if_pos hclose, if_pos hclose]
          obtain ⟨top, below, rfl⟩ := List.exists_cons_of_ne_nil hstack
          simp only
          split_ifs with hne hempty
          · rfl
          · rfl
          · rw [ih (by simpa using hempty), hnext]
        · rw [if_neg hclose, if_neg hclose, ih hstack, hnext]
    · simp only
      rw [ih hstack, hnext]

theorem containerEndAt_eq {value rest : Str} {start : ℕ} {c close : Char} (hdrop : value.drop start = c :: rest)
    (hc : closer c = some close) :
    containerEndAt value start = .ok ((containerEnd c rest).map (start + ·)) := by
  rw [containerEndAt, hdrop, containerEnd, hc]
  simp only [hc, Option.toList_some]
  exact scanFrom_eq (List.cons_ne_nil _ _) none false start rest

/-- A scan between quotes comes to the closing one. -/
theorem scanContainer_unquoted {stack : List Char} {q : Char} {s : Str} {n : ℕ}
    (h : scanContainer stack (some q) false s = some n) : ∃ body rest, s = body ++ q :: rest ∧ Quoted q body := by
  induction hlength : s.length using Nat.strong_induction_on generalizing s n with
  | h length ih =>
    subst hlength
    cases s with
    | nil => cases h
    | cons c s =>
      by_cases hslash : c = '\\'
      · subst hslash
        have hescape : quotedCharState '\\' (some q) false = (some q, true, true) := rfl
        rw [scanContainer_consumed hescape, Option.map_eq_some_iff] at h
        obtain ⟨k, hk, -⟩ := h
        cases s with
        | nil => cases hk
        | cons d s =>
          have hescaped : quotedCharState d (some q) true = (some q, false, true) := rfl
          rw [scanContainer_consumed hescaped, Option.map_eq_some_iff] at hk
          obtain ⟨k', hk', -⟩ := hk
          obtain ⟨body, rest, rfl, hbody⟩ := ih s.length (by simp only [List.length_cons]; omega) hk' rfl
          exact ⟨'\\' :: d :: body, rest, rfl, .escape hbody⟩
      · by_cases hquote : c = q
        · subst hquote
          exact ⟨[], s, rfl, .nil⟩
        · have hstay : quotedCharState c (some q) false = (some q, false, true) := by
            simp [quotedCharState, hslash, hquote]
          rw [scanContainer_consumed hstay, Option.map_eq_some_iff] at h
          obtain ⟨k, hk, -⟩ := h
          obtain ⟨body, rest, rfl, hbody⟩ := ih s.length (by simp) hk rfl
          exact ⟨c :: body, rest, rfl, .plain hquote hslash hbody⟩

/-- A scan that comes to an end has passed over brackets in pairs up to the closer on top of
its stack. -/
theorem scanContainer_closes {close : Char} {below : List Char} {s : Str} {n : ℕ}
    (h : scanContainer (close :: below) none false s = some n) :
    ∃ body rest, s = body ++ close :: rest ∧ Bracketed body := by
  induction hlength : s.length using Nat.strong_induction_on generalizing close below s n with
  | h length ih =>
    subst hlength
    cases s with
    | nil => cases h
    | cons c s =>
      by_cases hslash : c = '\\'
      · subst hslash
        have hescape : quotedCharState '\\' none false = (none, true, true) := rfl
        rw [scanContainer_consumed hescape, Option.map_eq_some_iff] at h
        obtain ⟨k, hk, -⟩ := h
        cases s with
        | nil => cases hk
        | cons d s =>
          have hescaped : quotedCharState d none true = (none, false, true) := rfl
          rw [scanContainer_consumed hescaped, Option.map_eq_some_iff] at hk
          obtain ⟨k', hk', -⟩ := hk
          obtain ⟨body, rest, rfl, hbody⟩ := ih s.length (by simp only [List.length_cons]; omega) hk' rfl
          exact ⟨'\\' :: d :: body, rest, rfl, .escaped hbody⟩
      · cases hquote : isQuote c with
        | true =>
          have hopen : quotedCharState c none false = (some c, false, true) := by
            have hor : (c == '\'' || c == '"') = true := hquote
            simp [quotedCharState, hslash, hor]
          rw [scanContainer_consumed hopen, Option.map_eq_some_iff] at h
          obtain ⟨k, hk, -⟩ := h
          obtain ⟨body, rest, rfl, hbody⟩ := scanContainer_unquoted hk
          rw [scanContainer_quoted hslash hbody, Option.map_eq_some_iff] at hk
          obtain ⟨k', hk', -⟩ := hk
          obtain ⟨body', rest', rfl, hbody'⟩ := ih rest.length (by simp; omega) hk' rfl
          exact ⟨c :: body ++ c :: body', rest', by simp, .quoted hquote hbody hbody'⟩
        | false =>
          have hstate : quotedCharState c none false = (none, false, false) := by
            have hor : (c == '\'' || c == '"') = false := hquote
            simp [quotedCharState, hslash, hor]
          rw [scanContainer, hstate] at h
          cases hcloser : closer c with
          | some close' =>
            simp only [hcloser, Option.map_eq_some_iff] at h
            obtain ⟨k, hk, -⟩ := h
            -- The container inside comes to its end first, then the one around it.
            obtain ⟨body, rest, rfl, hbody⟩ := ih s.length (by simp) hk rfl
            rw [scanContainer_bracketed hbody (List.cons_ne_nil _ _), scanContainer_closed hcloser,
              Option.map_eq_some_iff] at hk
            obtain ⟨k', hk', -⟩ := hk
            rw [if_neg (by simp), Option.map_eq_some_iff] at hk'
            obtain ⟨k'', hk'', -⟩ := hk'
            obtain ⟨body', rest', rfl, hbody'⟩ := ih rest.length (by simp; omega) hk'' rfl
            exact ⟨c :: body ++ close' :: body', rest', by simp, .nested hcloser hbody hbody'⟩
          | none =>
            simp only [hcloser] at h
            by_cases hclose : c == '\x7d' || c == ']'
            · rw [if_pos hclose] at h
              have hsame : c = close := by
                by_contra hne
                have hbne : (c != close) = true := by simpa using hne
                rw [if_pos hbne] at h
                cases h
              exact ⟨[], s, by rw [hsame]; rfl, .nil⟩
            · rw [if_neg hclose, Option.map_eq_some_iff] at h
              obtain ⟨k, hk, -⟩ := h
              have hopener : isOpener c = false := by
                unfold closer at hcloser
                split_ifs at hcloser with hbrace hbracket
                simp [isOpener, hbrace, hbracket]
              have hinert : isInert c := by
                rw [Bool.not_eq_true, Bool.or_eq_false_iff] at hclose
                simp only [isInert, hquote, hopener, bne, hclose.1, hclose.2]
                simpa using hslash
              obtain ⟨body, rest, rfl, hbody⟩ := ih s.length (by simp) hk rfl
              exact ⟨c :: body, rest, rfl, .inert hinert hbody⟩

theorem closer_of_isOpener {c : Char} (h : isOpener c) : ∃ close, closer c = some close := by
  rw [isOpener, Bool.or_eq_true] at h
  rcases h with h | h
  · exact ⟨'\x7d', by rw [eq_of_beq h]; rfl⟩
  · exact ⟨']', by rw [eq_of_beq h]; rfl⟩

/-- Where the end of a container is found, its brackets are in pairs. -/
theorem containerEnd_iff {c close : Char} (hc : closer c = some close) {rest : Str} {n : ℕ} :
    containerEnd c rest = some n ↔
      ∃ body more, rest = body ++ close :: more ∧ Bracketed body ∧ n = body.length + 1 := by
  constructor
  · intro h
    have hscan : scanContainer [close] none false rest = some n := by
      rw [containerEnd, hc] at h
      exact h
    obtain ⟨body, more, rfl, hbody⟩ := scanContainer_closes hscan
    rw [containerEnd_bracketed hc hbody] at h
    exact ⟨body, more, rfl, hbody, (Option.some.inj h).symm⟩
  · rintro ⟨body, more, rfl, hbody, rfl⟩
    exact containerEnd_bracketed hc hbody more

/-- White space between the tokens of a JSON text. -/
def IsGap (s : Str) : Prop := ∀ c ∈ s, c ∈ [' ', '\t', '\n', '\r']

def isNumberChar (c : Char) : Bool := c.isDigit || "+-.eE".toList.contains c

/-- The parts of a JSON text: an element is a value with white space around it. -/
inductive JsonPart where
  | value | element | container | elements | members

/-- The texts of a part; numbers and escapes are taken as they come. -/
inductive JsonForm : JsonPart → Str → Prop
  | word {w : String} : w ∈ ["null", "true", "false", "NaN", "Infinity", "-Infinity"] →
      JsonForm .value w.toList
  | number {s : Str} : s ≠ [] → (∀ c ∈ s, isNumberChar c) → JsonForm .value s
  | string {s : Str} : Quoted '"' s → JsonForm .value ('"' :: s ++ ['"'])
  | nested {s : Str} : JsonForm .container s → JsonForm .value s
  | element {gap v gap' : Str} : IsGap gap → JsonForm .value v → IsGap gap' →
      JsonForm .element (gap ++ v ++ gap')
  | one {s : Str} : JsonForm .element s → JsonForm .elements s
  | more {s rest : Str} : JsonForm .element s → JsonForm .elements rest →
      JsonForm .elements (s ++ ',' :: rest)
  | member {gap key gap' v : Str} : IsGap gap → Quoted '"' key → IsGap gap' → JsonForm .element v →
      JsonForm .members (gap ++ ('"' :: key ++ ['"']) ++ gap' ++ ':' :: v)
  | moreMembers {gap key gap' v rest : Str} : IsGap gap → Quoted '"' key → IsGap gap' →
      JsonForm .element v → JsonForm .members rest →
      JsonForm .members (gap ++ ('"' :: key ++ ['"']) ++ gap' ++ ':' :: v ++ ',' :: rest)
  | emptyArray {gap : Str} : IsGap gap → JsonForm .container ('[' :: gap ++ [']'])
  | array {s : Str} : JsonForm .elements s → JsonForm .container ('[' :: s ++ [']'])
  | emptyObject {gap : Str} : IsGap gap → JsonForm .container ('\x7b' :: gap ++ ['\x7d'])
  | object {s : Str} : JsonForm .members s → JsonForm .container ('\x7b' :: s ++ ['\x7d'])

/-- A list or a mapping as JSON text. -/
def JsonContainer (t : Str) : Prop := JsonForm .container t

/-- A text whose first and last characters are the brackets of a container. -/
def Enclosed (t : Str) : Prop :=
  ∃ c close body, t = c :: body ++ [close] ∧ closer c = some close ∧ Balanced body

theorem Enclosed.balanced {t : Str} (h : Enclosed t) : Balanced t := by
  obtain ⟨c, close, body, rfl, hc, hbody⟩ := h
  exact .enclose hc hbody

theorem IsGap.balanced {gap : Str} (h : IsGap gap) : Balanced gap := by
  apply Balanced.of_inert
  intro c hc
  have hinert : ∀ d ∈ [' ', '\t', '\n', '\r'], isInert d := by decide
  exact hinert c (h c hc)

theorem isInert_numberChar {c : Char} (h : isNumberChar c) : isInert c := by
  rw [isNumberChar, Bool.or_eq_true] at h
  rcases h with h | h
  · exact isInert_digit h
  · have hinert : ∀ d ∈ "+-.eE".toList, isInert d := by decide
    exact hinert c (by simpa using h)

/-- What the scan needs to know of a part. -/
def JsonPart.Scanned : JsonPart → Str → Prop
  | .container, t => Enclosed t
  | _, t => Balanced t

theorem JsonForm.scanned {part : JsonPart} {t : Str} (h : JsonForm part t) : part.Scanned t := by
  induction h with
  | @word w hw =>
    have hinert : ∀ w ∈ ["null", "true", "false", "NaN", "Infinity", "-Infinity"],
        ∀ c ∈ w.toList, isInert c := by decide
    exact .of_inert (hinert w hw)
  | number _ hs => exact .of_inert fun c hc => isInert_numberChar (hs c hc)
  | string hs => exact .quote (by decide) hs
  | nested _ ih => exact Enclosed.balanced ih
  | element hgap _ hgap' ih => exact (hgap.balanced.append ih).append hgap'.balanced
  | one _ ih => exact ih
  | more _ _ ih ihrest => exact Balanced.append ih (.inert (by decide) ihrest)
  | member hgap hkey hgap' _ ih =>
    exact ((hgap.balanced.append (.quote (by decide) hkey)).append hgap'.balanced).append
      (.inert (by decide) ih)
  | moreMembers hgap hkey hgap' _ _ ih ihrest =>
    exact (((hgap.balanced.append (.quote (by decide) hkey)).append hgap'.balanced).append
      (.inert (by decide) ih)).append (.inert (by decide) ihrest)
  | emptyArray hgap => exact ⟨'[', ']', _, rfl, by decide, hgap.balanced⟩
  | array _ ih => exact ⟨'[', ']', _, rfl, by decide, ih⟩
  | emptyObject hgap => exact ⟨'\x7b', '\x7d', _, rfl, by decide, hgap.balanced⟩
  | object _ ih => exact ⟨'\x7b', '\x7d', _, rfl, by decide, ih⟩

def isAtomChar (c : Char) : Bool := c.isAlphanum || "_.+-".toList.contains c

/-- The parts of a Python literal: an entry is a value, or a key with its value, with white
space around them. -/
inductive LiteralPart where
  | value | container | entry | entries

/-- The texts of a part, with strings in single or double quotes. Values next to each other
are a string in pieces or the terms of a complex number. -/
inductive LiteralForm : LiteralPart → Str → Prop
  | atom {s : Str} : s ≠ [] → (∀ c ∈ s, isAtomChar c) → LiteralForm .value s
  | string {mark s : Str} {q : Char} : (∀ c ∈ mark, c.isAlpha) → isQuote q → Quoted q s →
      LiteralForm .value (mark ++ (q :: s ++ [q]))
  | adjacent {a gap b : Str} : LiteralForm .value a → IsGap gap → LiteralForm .value b →
      LiteralForm .value (a ++ gap ++ b)
  | tuple {s : Str} : LiteralForm .entries s → LiteralForm .value ('(' :: s ++ [')'])
  | nested {s : Str} : LiteralForm .container s → LiteralForm .value s
  | element {gap v gap' : Str} : IsGap gap → LiteralForm .value v → IsGap gap' →
      LiteralForm .entry (gap ++ v ++ gap')
  | pair {k v : Str} : LiteralForm .entry k → LiteralForm .entry v → LiteralForm .entry (k ++ ':' :: v)
  | none {gap : Str} : IsGap gap → LiteralForm .entries gap
  | last {s : Str} : LiteralForm .entry s → LiteralForm .entries s
  | more {s rest : Str} : LiteralForm .entry s → LiteralForm .entries rest →
      LiteralForm .entries (s ++ ',' :: rest)
  | list {s : Str} : LiteralForm .entries s → LiteralForm .container ('[' :: s ++ [']'])
  | braces {s : Str} : LiteralForm .entries s → LiteralForm .container ('\x7b' :: s ++ ['\x7d'])

/-- A list, a set or a mapping as a Python literal. -/
def LiteralContainer (t : Str) : Prop := LiteralForm .container t

theorem isInert_alphanum {c : Char} (h : c.isAlphanum) : isInert c := by
  have hne : ∀ d : Char, d.isAlphanum = false → c ≠ d := by
    rintro d hd rfl
    rw [hd] at h
    cases h
  simp [isInert, isQuote, isOpener, hne '\'' (by decide), hne '"' (by decide), hne '\\' (by decide),
    hne '\x7b' (by decide), hne '[' (by decide), hne '\x7d' (by decide), hne ']' (by decide)]

theorem isInert_atomChar {c : Char} (h : isAtomChar c) : isInert c := by
  rw [isAtomChar, Bool.or_eq_true] at h
  rcases h with h | h
  · exact isInert_alphanum h
  · have hinert : ∀ d ∈ "_.+-".toList, isInert d := by decide
    exact hinert c (by simpa using h)

def LiteralPart.Scanned : LiteralPart → Str → Prop
  | .container, t => Enclosed t
  | _, t => Balanced t

theorem LiteralForm.scanned {part : LiteralPart} {t : Str} (h : LiteralForm part t) : part.Scanned t := by
  induction h with
  | atom _ hs => exact .of_inert fun c hc => isInert_atomChar (hs c hc)
  | @string mark s q hmark hq hs =>
    have hinert : ∀ c ∈ mark, isInert c := fun c hc => isInert_alphanum (by simp [Char.isAlphanum, hmark c hc])
    exact (Balanced.of_inert hinert).append (.quote hq hs)
  | adjacent _ hgap _ iha ihb => exact (Balanced.append iha hgap.balanced).append ihb
  | tuple _ ih => exact .inert (by decide) (Balanced.append ih (.of_inert (by decide)))
  | nested _ ih => exact Enclosed.balanced ih
  | element hgap _ hgap' ih => exact (hgap.balanced.append ih).append hgap'.balanced
  | pair _ _ ihk ihv => exact Balanced.append ihk (.inert (by decide) ihv)
  | none hgap => exact hgap.balanced
  | last _ ih => exact ih
  | more _ _ ih ihrest => exact Balanced.append ih (.inert (by decide) ihrest)
  | list _ ih => exact ⟨'[', ']', _, rfl, by decide, ih⟩
  | braces _ ih => exact ⟨'\x7b', '\x7d', _, rfl, by decide, ih⟩

theorem IsGap.nil : IsGap [] := nofun

theorem intText_chars (n : ℤ) : intText n ≠ [] ∧ ∀ c ∈ intText n, c.isDigit ∨ c = '-' := by
  obtain ⟨c, rest, heq, hc, hrest⟩ := intText_cases n
  rw [heq]
  refine ⟨List.cons_ne_nil _ _, ?_⟩
  rw [List.forall_mem_cons]
  exact ⟨hc, fun d hd => .inl (hrest d hd)⟩

section
variable {style : Style}

/-- The separators of a style are a comma and a colon, with white space around them. -/
structure PlainStyle (style : Style) : Prop where
  item : ∃ gap gap', style.item = gap ++ ',' :: gap' ∧ IsGap gap ∧ IsGap gap'
  key : ∃ gap gap', style.key = gap ++ ':' :: gap' ∧ IsGap gap ∧ IsGap gap'

theorem compactStyle_plain : PlainStyle compactStyle where
  item := ⟨[], [], rfl, .nil, .nil⟩
  key := ⟨[], [], rfl, .nil, .nil⟩

theorem plainStyle_plain : PlainStyle plainStyle where
  item := ⟨[], [' '], rfl, .nil, by simp [IsGap]⟩
  key := ⟨[], [' '], rfl, .nil, by simp [IsGap]⟩

theorem JsonForm.int (n : ℤ) : JsonForm .value (intText n) := by
  obtain ⟨hne, hchars⟩ := intText_chars n
  refine .number hne fun c hc => ?_
  rcases hchars c hc with hdigit | rfl
  · simp [isNumberChar, hdigit]
  · rfl

theorem JsonForm.float {text : Str} (h : FiniteFloat text) : JsonForm .value text := by
  obtain ⟨⟨c, rest, rfl, -⟩, hchars⟩ := h
  refine .number (List.cons_ne_nil _ _) fun d hd => ?_
  rcases hchars d hd with hdigit | rfl | rfl | rfl | rfl
  · simp [isNumberChar, hdigit]
  all_goals decide

/-- Values in a row, after white space. -/
theorem JsonForm.elements (hstyle : PlainStyle style) {gap p : Str} {parts : List Str} (hgap : IsGap gap)
    (hparts : ∀ v ∈ p :: parts, JsonForm .value v) :
    JsonForm .elements (gap ++ joined style.item (p :: parts)) := by
  obtain ⟨before, after, hitem, hbefore, hafter⟩ := hstyle.item
  induction parts generalizing gap p with
  | nil =>
    have h : JsonForm .element (gap ++ p ++ []) := .element hgap (hparts p (by simp)) .nil
    simpa [PythonValues.joined] using JsonForm.one h
  | cons q parts ih =>
    rw [List.forall_mem_cons] at hparts
    have hfirst : JsonForm .element (gap ++ p ++ before) := .element hgap hparts.1 hbefore
    have hrest := ih hafter hparts.2
    have heq : gap ++ joined style.item (p :: q :: parts) =
        gap ++ p ++ before ++ ',' :: (after ++ joined style.item (q :: parts)) := by
      simp [PythonValues.joined, List.intercalate_cons_cons, hitem]
    rw [heq]
    exact .more hfirst hrest

/-- Members in a row, after white space. -/
theorem JsonForm.memberList (hstyle : PlainStyle style) {gap : Str} {e : Str × Str} {es : List (Str × Str)}
    (hgap : IsGap gap) (hes : ∀ m ∈ e :: es, JsonForm .value m.2) :
    JsonForm .members (gap ++ joined style.item ((e :: es).map style.entryText)) := by
  obtain ⟨before, after, hitem, hbefore, hafter⟩ := hstyle.item
  obtain ⟨before', after', hkey, hbefore', hafter'⟩ := hstyle.key
  induction es generalizing gap e with
  | nil =>
    have hvalue : JsonForm .element (after' ++ e.2 ++ []) := .element hafter' (hes e (by simp)) .nil
    have h := JsonForm.member hgap (Quoted.flatMap quoted_jsonChar e.1) hbefore' hvalue
    simpa [PythonValues.joined, Style.entryText, jsonString, hkey] using h
  | cons e' es ih =>
    rw [List.forall_mem_cons] at hes
    have hvalue : JsonForm .element (after' ++ e.2 ++ before) := .element hafter' hes.1 hbefore
    have hrest := ih hafter hes.2
    have h := JsonForm.moreMembers hgap (Quoted.flatMap quoted_jsonChar e.1) hbefore' hvalue hrest
    simpa [PythonValues.joined, List.intercalate_cons_cons, Style.entryText, jsonString, hitem, hkey] using h

mutual

/-- `json.dumps` writes JSON texts. -/
theorem jsonForm_jsonText (hstyle : PlainStyle style) : ∀ v : Data, JsonLike v → JsonForm .value (jsonText style v)
  | .dict es, h => by
    have hentries := jsonForm_jsonEntries hstyle es h
    rw [jsonText]
    cases horder : style.order (jsonEntries style es) with
    | nil => exact .nested (.emptyObject .nil)
    | cons e es' =>
      refine .nested (.object (JsonForm.memberList hstyle .nil fun m hm => ?_))
      rw [← horder, mem_order] at hm
      exact hentries m hm
  | .list xs, h => by
    have hitems := jsonForm_jsonItems hstyle xs h
    rw [jsonText]
    cases hxs : jsonItems style xs with
    | nil => exact .nested (.emptyArray .nil)
    | cons x xs' =>
      rw [hxs] at hitems
      exact .nested (.array (JsonForm.elements hstyle .nil hitems))
  | .tuple xs, h => by
    have hitems := jsonForm_jsonItems hstyle xs h
    rw [jsonText]
    cases hxs : jsonItems style xs with
    | nil => exact .nested (.emptyArray .nil)
    | cons x xs' =>
      rw [hxs] at hitems
      exact .nested (.array (JsonForm.elements hstyle .nil hitems))
  | .none, _ => .word (w := "null") (by decide)
  | .bool true, _ => .word (w := "true") (by decide)
  | .bool false, _ => .word (w := "false") (by decide)
  | .int n, _ => .int n
  | .float text, h => by
    rw [jsonText, jsonFloat_finite h]
    exact .float h
  | .str s, _ => .string (.flatMap quoted_jsonChar s)

theorem jsonForm_jsonItems (hstyle : PlainStyle style) :
    ∀ xs : List Data, ItemsLike xs → ∀ p ∈ jsonItems style xs, JsonForm .value p
  | [], _ => by simp [jsonItems]
  | x :: xs, h => by
    rw [jsonItems, List.forall_mem_cons]
    exact ⟨jsonForm_jsonText hstyle x h.1, jsonForm_jsonItems hstyle xs h.2⟩

theorem jsonForm_jsonEntries (hstyle : PlainStyle style) :
    ∀ es : List (Data × Data), EntriesLike es → ∀ e ∈ jsonEntries style es, JsonForm .value e.2
  | [], _ => by simp [jsonEntries]
  | (.str k, v) :: es, h => by
    rw [jsonEntries, List.forall_mem_cons]
    exact ⟨jsonForm_jsonText hstyle v h.1, jsonForm_jsonEntries hstyle es h.2.2⟩

end

end

section
variable {printable : Char → Bool}

theorem LiteralForm.int (n : ℤ) : LiteralForm .value (intText n) := by
  obtain ⟨hne, hchars⟩ := intText_chars n
  refine .atom hne fun c hc => ?_
  rcases hchars c hc with hdigit | rfl
  · simp [isAtomChar, Char.isAlphanum, hdigit]
  · rfl

theorem LiteralForm.str (s : Str) : LiteralForm .value (reprStr printable s) := by
  have hmark : ∀ c ∈ ([] : Str), c.isAlpha := nofun
  exact .string hmark (isQuote_reprQuote s) (.flatMap (quoted_reprChar (isQuote_reprQuote s)) s)

theorem LiteralForm.space_entry {s : Str} {gap : Str} (hgap : IsGap gap) (h : LiteralForm .value s) :
    LiteralForm .entry (gap ++ s) := by
  have hentry : LiteralForm .entry (gap ++ s ++ []) := .element hgap h .nil
  rwa [List.append_nil] at hentry

/-- Parts in a row, after white space, when each of them is an entry after white space. -/
theorem LiteralForm.joined {gap : Str} {parts : List Str} (hgap : IsGap gap)
    (hparts : ∀ p ∈ parts, ∀ gap, IsGap gap → LiteralForm .entry (gap ++ p)) :
    LiteralForm .entries (gap ++ joined ", ".toList parts) := by
  induction parts generalizing gap with
  | nil =>
    simpa [PythonValues.joined] using LiteralForm.none hgap
  | cons p parts ih =>
    rw [List.forall_mem_cons] at hparts
    have hfirst := hparts.1 gap hgap
    cases parts with
    | nil => simpa [PythonValues.joined] using LiteralForm.last hfirst
    | cons q parts =>
      have hspace : IsGap [' '] := by simp [IsGap]
      have hrest := ih hspace hparts.2
      have heq : gap ++ PythonValues.joined ", ".toList (p :: q :: parts) =
          gap ++ p ++ ',' :: ([' '] ++ PythonValues.joined ", ".toList (q :: parts)) := by
        simp [PythonValues.joined, List.intercalate_cons_cons]
      rw [heq]
      exact .more hfirst hrest

mutual

/-- `repr` writes Python literals. -/
theorem literalForm_repr : ∀ v : Data, LiteralLike v → LiteralForm .value (repr printable v)
  | .dict es, h => .nested (.braces (.joined .nil (literalForm_reprEntries es h)))
  | .list xs, h => .nested (.list (.joined .nil fun p hp _ hgap =>
      .space_entry hgap (literalForm_reprItems xs h p hp)))
  | .tuple [], _ => .tuple (.none .nil)
  | .tuple [x], h => by
    have hentry : LiteralForm .entry (repr printable x) := .space_entry .nil (literalForm_repr x h.1)
    have htuple := LiteralForm.tuple (.more hentry (.none .nil))
    have heq : PythonValues.repr printable (.tuple [x]) =
        '(' :: (PythonValues.repr printable x ++ ',' :: []) ++ [')'] := by
      rw [List.cons_append, List.append_assoc]
      rfl
    rw [heq]
    exact htuple
  | .tuple (x :: y :: xs), h => .tuple (.joined .nil fun p hp _ hgap =>
      .space_entry hgap (literalForm_reprItems (x :: y :: xs) h p hp))
  | .none, _ => .atom (s := "None".toList) (by decide) (by decide)
  | .bool true, _ => .atom (s := "True".toList) (by decide) (by decide)
  | .bool false, _ => .atom (s := "False".toList) (by decide) (by decide)
  | .int n, _ => .int n
  | .str s, _ => .str s

theorem literalForm_reprItems : ∀ xs : List Data, ItemsLiteral xs →
    ∀ p ∈ reprItems printable xs, LiteralForm .value p
  | [], _ => by simp [reprItems]
  | x :: xs, h => by
    rw [reprItems, List.forall_mem_cons]
    exact ⟨literalForm_repr x h.1, literalForm_reprItems xs h.2⟩

theorem literalForm_reprEntries : ∀ es : List (Data × Data), EntriesLiteral es →
    ∀ p ∈ reprEntries printable es, ∀ gap, IsGap gap → LiteralForm .entry (gap ++ p)
  | [], _ => by simp [reprEntries]
  | (k, v) :: es, h => by
    rw [reprEntries, List.forall_mem_cons]
    refine ⟨fun gap hgap => ?_, literalForm_reprEntries es h.2.2⟩
    have hkey : LiteralForm .value (repr printable k) := by
      rcases h.1 with ⟨s, rfl⟩ | ⟨n, rfl⟩
      · exact .str s
      · exact .int n
    have hspace : IsGap [' '] := by simp [IsGap]
    have hpair := LiteralForm.pair (.space_entry hgap hkey) (.space_entry hspace (literalForm_repr v h.2.1))
    simpa using hpair

end

end

/-- `value[i:j]`. -/
def slice (value : Str) (i j : ℕ) : Str := (value.take j).drop i

/-- Between the brackets at two places of a text, the brackets outside quotes that no
backslash escapes are in pairs. -/
def Encloses (value : Str) (start stop : ℕ) : Prop :=
  ∃ c close body, slice value start (stop + 1) = c :: body ++ [close] ∧ closer c = some close ∧ Bracketed body

theorem containerEndAt_enclosed {t : Str} (h : Enclosed t) (p s : Str) :
    containerEndAt (p ++ t ++ s) p.length = .ok (some (p.length + t.length - 1)) := by
  obtain ⟨c, close, body, rfl, hc, hbody⟩ := h
  have hdrop : (p ++ (c :: body ++ [close]) ++ s).drop p.length = c :: (body ++ close :: s) := by
    rw [List.append_assoc, List.drop_left']
    · simp
    · rfl
  rw [containerEndAt_eq hdrop hc, containerEnd_balanced hc hbody]
  simp only [Option.map_some, List.length_append, List.length_cons, List.length_nil]
  congr 2

/-- A JSON value that starts with a bracket is a container. -/
theorem JsonForm.container {c : Char} {t : Str} (hc : isOpener c) (h : JsonForm .value (c :: t)) :
    JsonContainer (c :: t) := by
  generalize heq : c :: t = value at h
  cases h with
  | @word w hw =>
    have hplain : ∀ w ∈ ["null", "true", "false", "NaN", "Infinity", "-Infinity"],
        ∀ d ∈ w.toList, isOpener d = false := by decide
    have hnot := hplain w hw c (heq ▸ List.mem_cons_self ..)
    rw [hnot] at hc
    cases hc
  | number _ hs =>
    have hinert := isInert_numberChar (hs c (heq ▸ List.mem_cons_self ..))
    rcases (by simpa [isOpener] using hc : c = '\x7b' ∨ c = '[') with rfl | rfl <;> cases hinert
  | string _ =>
    obtain rfl : c = '"' := (List.cons.inj heq).1
    cases hc
  | nested h => exact h

theorem jsonContainer_dumps {style : Style} (hstyle : PlainStyle style) {v : Data} (hlike : JsonLike v)
    (hv : isContainer v) {t : Str} (ht : dumps style v = .ok t) : JsonContainer t := by
  have hform := jsonForm_jsonText hstyle v hlike
  rw [← dumps_eq_ok hlike ht] at hform
  obtain ⟨c, rest, rfl, hc⟩ : ∃ c rest, t = c :: rest ∧ isOpener c := by
    rw [dumps_eq_ok hlike ht]
    cases v with
    | dict es => exact ⟨_, _, rfl, rfl⟩
    | list xs => exact ⟨_, _, rfl, rfl⟩
    | tuple xs => exact ⟨_, _, rfl, rfl⟩
    | _ => cases hv
  exact hform.container hc

theorem literalContainer_repr {printable : Char → Bool} {v : Data} (hlike : LiteralLike v)
    (hv : isContainer v) (htuple : ∀ xs, v ≠ .tuple xs) :
    LiteralContainer (PythonValues.repr printable v) := by
  cases v with
  | dict es => exact .braces (.joined .nil (literalForm_reprEntries es hlike))
  | list xs =>
    exact .list (.joined .nil fun p hp _ hgap => .space_entry hgap (literalForm_reprItems xs hlike p hp))
  | tuple xs => exact absurd rfl (htuple xs)
  | _ => cases hv

/-- The scan finds the end of every list and mapping that `json.dumps` or `repr` has written. -/
theorem containerEndAt_written (p s : Str) {v : Data} (hv : isContainer v) :
    (∀ style t, style = plainStyle ∨ style = compactStyle → JsonLike v → dumps style v = .ok t →
      containerEndAt (p ++ t ++ s) p.length = .ok (some (p.length + t.length - 1))) ∧
    (LiteralLike v → (∀ xs, v ≠ .tuple xs) → ∀ printable t, t = PythonValues.repr printable v →
      containerEndAt (p ++ t ++ s) p.length = .ok (some (p.length + t.length - 1))) := by
  constructor
  · rintro style t hstyle hlike ht
    have hplain : PlainStyle style := by
      rcases hstyle with rfl | rfl
      · exact plainStyle_plain
      · exact compactStyle_plain
    exact containerEndAt_enclosed (JsonForm.scanned (jsonContainer_dumps hplain hlike hv ht)) p s
  · rintro hlike htuple printable t rfl
    exact containerEndAt_enclosed (LiteralForm.scanned (literalContainer_repr hlike hv htuple)) p s

theorem containerEndAt_encloses {value : Str} {start : ℕ} {c : Char} (hstart : value[start]? = some c)
    (hc : isOpener c) :
    ∃ r, containerEndAt value start = .ok r ∧ ∀ stop, r = some stop → Encloses value start stop := by
  obtain ⟨hlt, hget⟩ := List.getElem?_eq_some_iff.1 hstart
  have hdrop : value.drop start = c :: value.drop (start + 1) := by
    rw [List.drop_eq_getElem_cons hlt, hget]
  obtain ⟨close, hclose⟩ := closer_of_isOpener hc
  refine ⟨_, containerEndAt_eq hdrop hclose, fun stop hstop => ?_⟩
  obtain ⟨n, hn, rfl⟩ := Option.map_eq_some_iff.1 hstop
  obtain ⟨body, more, hrest, hbody, rfl⟩ := (containerEnd_iff hclose).1 hn
  refine ⟨c, close, body, ?_, hclose, hbody⟩
  rw [slice, List.drop_take, hdrop, hrest]
  have hcount : start + (body.length + 1) + 1 - start = (c :: body ++ [close]).length := by
    simp only [List.length_append, List.length_cons, List.length_nil]
    omega
  rw [hcount]
  have hsplit : c :: (body ++ close :: more) = (c :: body ++ [close]) ++ more := by simp
  rw [hsplit, List.take_left]

/-- The scan finds the end of every list and mapping in a text, whatever stands around it,
reads no empty stack, and finds no end but that of a span with its brackets in pairs. -/
theorem containerEndAt_finds :
    (∀ t, JsonContainer t ∨ LiteralContainer t → ∀ p s : Str,
      containerEndAt (p ++ t ++ s) p.length = .ok (some (p.length + t.length - 1))) ∧
    ∀ (value : Str) (start : ℕ) (c : Char), value[start]? = some c → isOpener c →
      ∃ r, containerEndAt value start = .ok r ∧ ∀ stop, r = some stop → Encloses value start stop := by
  constructor
  · intro t ht p s
    have henclosed : Enclosed t := ht.elim (fun h => JsonForm.scanned h) fun h => LiteralForm.scanned h
    exact containerEndAt_enclosed henclosed p s
  · intro value start c hstart hc
    exact containerEndAt_encloses hstart hc

/-- A list of one string, in which there are a quote and a bracket. -/
def quotedBracket : Str := "[\"\\\"]\"]".toList

theorem jsonContainer_quotedBracket : JsonContainer quotedBracket := by
  have hstring : Quoted '"' "\\\"]".toList := .escape (.plain (by decide) (by decide) .nil)
  exact .array (.one (.element .nil (.string hstring) .nil))

theorem quotedBracket_end :
    containerEndAt "a]['[\"\\\"]\"]']".toList 4 = .ok (some 10) ∧
      ∃ r, containerEndAt "a]['".toList 2 = .ok r ∧ ∀ stop, r = some stop → Encloses "a]['".toList 2 stop :=
  ⟨containerEndAt_finds.1 quotedBracket (.inl jsonContainer_quotedBracket) "a]['".toList "']".toList,
    containerEndAt_finds.2 "a]['".toList 2 '[' rfl rfl⟩

end BitcoinRpcOperator.Redaction
