import BitcoinRpcOperator.Backtracking
import BitcoinRpcOperator.PythonValues

/-!
# Redaction of runtime values

The redactor of `bitcoin_metadata.py`. A text is first searched for serialized containers,
which are parsed, redacted entry by entry and written again; what comes of it goes through
seven substitutions. What the redactor takes from the standard library, and the classes of
characters beyond ASCII, are in a `Library`. The texts in a fragment are shorter than the
fragment, so `redact_runtime_value` calls itself on shorter texts only.
-/

namespace BitcoinRpcOperator.Redaction
open Text Backtracking PythonValues

def sensitiveKeyParts : List Str :=
  ["accesskey", "apikey", "authorization", "cookie", "credential", "credentials", "password",
    "privatekey", "rpcauth", "rpcpassword", "rpcuser", "secret", "sessiontoken",
    "token"].map String.toList

/-- The characters beyond ASCII whose case folding has ASCII letters, with these. -/
def foldings : List (ℕ × Str) :=
  [(0xdf, "ss"), (0x130, "i"), (0x149, "n"), (0x17f, "s"), (0x1f0, "j"), (0x1e96, "h"),
    (0x1e97, "t"), (0x1e98, "w"), (0x1e99, "y"), (0x1e9a, "a"), (0x1e9e, "ss"), (0x212a, "k"),
    (0xfb00, "ff"), (0xfb01, "fi"), (0xfb02, "fl"), (0xfb03, "ffi"), (0xfb04, "ffl"),
    (0xfb05, "st"), (0xfb06, "st")].map fun f => (f.1, f.2.toList)

/-- The characters of `[a-z0-9]` in the case folding of a character. -/
def foldChar (c : Char) : Str :=
  if c.isAlphanum then [c.toLower] else ((foldings.find? fun f => f.1 == c.toNat).map (·.2)).getD []

/-- `part in text`. -/
def occursIn (part : Str) : Str → Bool
  | [] => part.isEmpty
  | c :: s => part.isPrefixOf (c :: s) || occursIn part s

def keyIsSensitive (key : Str) : Bool :=
  sensitiveKeyParts.any fun part => occursIn part (key.flatMap foldChar)

def redacted : Str := "REDACTED".toList

mutual

/-- The texts in a value, keys left out. -/
def leaves : Data → List Str
  | .str s => [s]
  | .list xs => itemLeaves xs
  | .tuple xs => itemLeaves xs
  | .dict es => entryLeaves es
  | _ => []

def itemLeaves : List Data → List Str
  | [] => []
  | x :: xs => leaves x ++ itemLeaves xs

def entryLeaves : List (Data × Data) → List Str
  | [] => []
  | (_, v) :: es => leaves v ++ entryLeaves es

end

/-- How a text is not parsed: `invalid` is `JSONDecodeError` or `SyntaxError`. -/
inductive ParseError where
  | invalid
  | raised (e : PythonError)
  deriving DecidableEq, Repr

/-- What gets through `except (json.JSONDecodeError, TypeError)`. -/
def ParseError.pastLoads : ParseError → Option PythonError
  | .invalid | .raised .typeError => none
  | .raised e => some e

/-- What gets through `except (SyntaxError, ValueError)`. -/
def ParseError.pastLiteral : ParseError → Option PythonError
  | .invalid | .raised (.valueError _) => none
  | .raised e => some e

/-- What is taken from the standard library. A text in a parsed value is shorter than what
was parsed, as it stood there in quotes. -/
structure Library where
  /-- `json.loads`, which also raises `ValueError` on an integer with too many digits and
  `RecursionError` on deep nesting. -/
  loads : Str → Except ParseError Data
  /-- `ast.literal_eval`, which also raises `TypeError` on an unhashable key and `RecursionError`
  or `MemoryError` on deep nesting. -/
  literalEval : Str → Except ParseError Data
  /-- How many containers deep `_redact_value` can go before `RecursionError`; `json.dumps` can
  go as deep. -/
  room : ℕ
  /-- Which characters beyond ASCII `\w` accepts. -/
  wordChar : Char → Bool
  /-- Which characters beyond ASCII `repr` writes as they are. -/
  printable : Char → Bool
  loads_shorter : ∀ s v, loads s = .ok v → ∀ leaf ∈ leaves v, leaf.length < s.length
  literalEval_shorter : ∀ s v, literalEval s = .ok v → ∀ leaf ∈ leaves v, leaf.length < s.length

theorem nothing_shorter (s : Str) (v : Data) (h : (.error .invalid : Except ParseError Data) = .ok v) :
    ∀ leaf ∈ leaves v, leaf.length < s.length := nomatch h

/-- A library that reads no fragments. -/
def readsNothing : Library where
  loads _ := .error .invalid
  literalEval _ := .error .invalid
  room := 1000
  wordChar _ := false
  printable _ := false
  loads_shorter := nothing_shorter
  literalEval_shorter := nothing_shorter

variable (lib : Library)

/-- What becomes of a value under a key. -/
def hide (key : Str) (value : Except PythonError Data) : Except PythonError Data :=
  if keyIsSensitive key then .ok (.str redacted) else value

/-- Set an entry of a dictionary. -/
def assign (key : Str) (value : Data) : List (Str × Data) → List (Str × Data)
  | [] => [(key, value)]
  | (k, v) :: es => if k = key then (k, value) :: es else (k, v) :: assign key value es

/-- A dictionary of texts from its entries, of which the later ones count. -/
def dictOf (entries : List (Str × Data)) : Data :=
  .dict ((entries.foldl (fun es e => assign e.1 e.2 es) []).map fun e => (.str e.1, e.2))

/-- Go into a container, with one level less to go. -/
def descend {α : Type} (room : ℕ) (inside : ℕ → Except PythonError α) : Except PythonError α :=
  match room with
  | 0 => .error (.recursionError "maximum recursion depth exceeded".toList)
  | room + 1 => inside room

mutual

/-- `_redact_value`, where `redact` is `redact_runtime_value`. -/
def redactValue (redact : ℕ → Str → Except PythonError Str) (room : ℕ) (key : Str) : Data → Except PythonError Data
  | .dict es => hide key <| descend room fun room => do return dictOf (← redactEntries redact room es)
  | .list xs => hide key <| descend room fun room => do return .list (← redactItems redact room xs)
  | .tuple xs => hide key <| descend room fun room => do return .tuple (← redactItems redact room xs)
  | .str s => hide key do return .str (← redact room s)
  | v => hide key (.ok v)

def redactItems (redact : ℕ → Str → Except PythonError Str) (room : ℕ) : List Data → Except PythonError (List Data)
  | [] => .ok []
  | x :: xs => do
    let x' ← redactValue redact room [] x
    let xs' ← redactItems redact room xs
    return x' :: xs'

def redactEntries (redact : ℕ → Str → Except PythonError Str) (room : ℕ) :
    List (Data × Data) → Except PythonError (List (Str × Data))
  | [] => .ok []
  | (k, v) :: es => do
    let name ← strOf lib.printable k
    let v' ← redactValue redact room name v
    let es' ← redactEntries redact room es
    return (name, v') :: es'

end

/-- The loop of `_parse_serialized`; `none` is the early return. -/
def parseLoop : ℕ → Data → Except PythonError (Option Data)
  | 0, candidate => .ok (some candidate)
  | n + 1, .str s =>
    match lib.loads (strip s) with
    | .ok v => parseLoop n v
    | .error e =>
      match e.pastLoads with
      | some e => .error e
      | none =>
        match lib.literalEval (strip s) with
        | .ok v => parseLoop n v
        | .error e =>
          match e.pastLiteral with
          | some e => .error e
          | none => .ok none
  | _ + 1, candidate => .ok (some candidate)

/-- `isinstance(value, (Mapping, list, tuple))`. -/
def isContainer : Data → Bool
  | .dict _ | .list _ | .tuple _ => true
  | _ => false

def parseSerialized (value : Str) : Except PythonError (Option Data) := do
  let candidate ← parseLoop lib 3 (.str value)
  return candidate.filter isContainer

/-- `_quoted_char_state`; no quote is the empty one. -/
def quotedCharState (char : Char) (quote : Option Char) (escaped : Bool) :
    Option Char × Bool × Bool :=
  if escaped then (quote, false, true)
  else if char == '\\' then (quote, true, true)
  else match quote with
    | some q => (if char == q then none else some q, false, true)
    | none =>
      if char == '\'' || char == '"' then (some char, false, true) else (none, false, false)

def closer (c : Char) : Option Char :=
  if c == '\x7b' then some '\x7d' else if c == '[' then some ']' else none

/-- The loop of `_container_end`: how many characters there are up to the end. -/
def scanContainer : List Char → Option Char → Bool → Str → Option ℕ
  | _, _, _, [] => none
  | stack, quote, escaped, c :: rest =>
    match quotedCharState c quote escaped with
    | (quote, escaped, true) => (scanContainer stack quote escaped rest).map (· + 1)
    | (quote, escaped, false) =>
      match closer c with
      | some close => (scanContainer (close :: stack) quote escaped rest).map (· + 1)
      | none =>
        if c == '\x7d' || c == ']' then
          match stack with
          | [] => none
          | top :: below =>
            if c != top then none
            else if below.isEmpty then some 1
            else (scanContainer below quote escaped rest).map (· + 1)
        else (scanContainer stack quote escaped rest).map (· + 1)

/-- `_container_end`: how much of what follows the bracket `c` belongs to its container. -/
def containerEnd (c : Char) (rest : Str) : Option ℕ :=
  scanContainer (closer c).toList none false rest

/-- `_looks_serialized_start`, for what follows the bracket `c`. -/
def looksSerializedStart (c : Char) (rest : Str) : Bool :=
  let remainder := lstripBy isSpace rest
  match remainder with
  | [] => true
  | first :: _ =>
    if c == '\x7b' then "'\"\\\x7d".toList.contains first
    else "'\"\\[\x7b]-0123456789".toList.contains first ||
      (["true", "false", "null", "True", "False", "None"].map String.toList).any
        (·.isPrefixOf remainder)

def isOpener (c : Char) : Bool := c == '\x7b' || c == '['

/-- The quote that a fragment stands in, if it has the same one on both sides. -/
def surroundingQuote (before : Option Char) (after : Str) : Option Char :=
  match before, after with
  | some q, a :: _ => if (q == '\'' || q == '"') && a == q then some q else none
  | _, _ => none

/-- What a round of the loop in `_redact_serialized_fragments` comes to. -/
inductive Round where
  /-- No bracket is left. -/
  | finished (plain : Str)
  /-- The bracket at the end of `plain` starts no serialized data. -/
  | skipped (plain rest : Str)
  | unclosed
  | found (plain fragment rest : Str)
  deriving DecidableEq, Repr

/-- The next bracket of what follows the character `before`. -/
def nextRound (before : Option Char) (value : Str) : Round :=
  let plain := value.takeWhile (!isOpener ·)
  match value.dropWhile (!isOpener ·) with
  | [] => .finished plain
  | c :: rest =>
    if looksSerializedStart c rest then
      match containerEnd c rest with
      | none => .unclosed
      | some len =>
        let quote := (surroundingQuote (plain.getLast?.or before) (rest.drop len)).toList
        .found plain (quote ++ c :: rest.take len ++ quote) ((rest.drop len).drop quote.length)
    else .skipped (plain ++ [c]) rest

/-- `_redact_serialized_fragments` on what follows the character `before`; `none` is the
early return. -/
def redactFragments (redact : ℕ → Str → Except PythonError Str) (room : ℕ) :
    ℕ → Option Char → Str → Except PythonError (Option Str)
  | 0, _, _ => .ok none
  | n + 1, before, value =>
    match nextRound before value with
    | .finished plain => .ok (some plain)
    | .unclosed => .ok none
    | .skipped plain rest => do
      let more ← redactFragments redact room n plain.getLast? rest
      return more.map (plain ++ ·)
    | .found plain fragment rest => do
      let parsed ← parseSerialized lib fragment
      match parsed with
      | none => return none
      | some v =>
        -- the redacted value nests no deeper, so `json.dumps` has room as well
        let v' ← redactValue lib redact room [] v
        let text ← dumps compactStyle v'
        let more ← redactFragments redact room n fragment.getLast? rest
        return more.map (plain ++ text ++ ·)

/-- A letter under `re.IGNORECASE`. -/
def letter (c x : Char) : Bool :=
  x.toLower == c || (c == 'i' && (x.toNat == 0x130 || x.toNat == 0x131)) ||
    (c == 's' && x.toNat == 0x17f) || (c == 'k' && x.toNat == 0x212a)

/-- A literal text under `re.IGNORECASE`. -/
def word (s : String) : Pattern := .seqs (s.toList.map fun c => .char (letter c))

/-- `[a-z]` under `re.IGNORECASE`. -/
def isLetter (x : Char) : Bool :=
  x.isAlpha || x.toNat == 0x130 || x.toNat == 0x131 || x.toNat == 0x17f || x.toNat == 0x212a

/-- `[a-z0-9_.-]` under `re.IGNORECASE`. -/
def isNameChar (x : Char) : Bool := isLetter x || x.isDigit || x == '_' || x == '.' || x == '-'

/-- `[a-z0-9+.-]` under `re.IGNORECASE`. -/
def isSchemeChar (x : Char) : Bool := isLetter x || x.isDigit || x == '+' || x == '.' || x == '-'

def isWord (x : Char) : Bool := x.isAlphanum || x == '_' || (0x80 ≤ x.toNat && lib.wordChar x)

def space : Pattern := .char isSpace

def nameTail : Pattern := .star (.char isNameChar)

def separator : Pattern := .char fun x => x == ':' || x == '='

def valuePattern : Pattern :=
  .alts [.seqs [.lit '"', .star (.char fun x => x != '"' && x != '\r' && x != '\n'), .lit '"'],
    .seqs [.lit '\'', .star (.char fun x => x != '\'' && x != '\r' && x != '\n'), .lit '\''],
    .plus (.char fun x => !isSpace x && !",;\x7d&#".toList.contains x)]

def urlPattern : Pattern :=
  .seqs [.group 1 (.seqs [.boundary (isWord lib), .char isLetter, .star (.char isSchemeChar),
      .text "://".toList]),
    .plus (.char fun x => !isSpace x && x != '/' && x != '@'), .lit '@']

def headerPattern : Pattern :=
  .seqs [.lineStart, .group 1 (.seqs [.star space, .group 2 (.seq (.char isLetter) nameTail),
      .star space, .lit ':', .star space]),
    .group 3 (.star (.char fun x => x != '\r' && x != '\n')), .lineEnd]

def authorizationPattern : Pattern :=
  let stop : Pattern := .plus (.char fun x => !isSpace x && x != ',' && x != '\x7d')
  .seqs [.group 1 (.seqs [.boundary (isWord lib), word "authorization", .star space, separator,
      .star space]),
    .alts [.seqs [.lit '"', .star (.char (· != '"')), .lit '"'],
      .seqs [.lit '\'', .star (.char (· != '\'')), .lit '\''],
      .seq stop (.opt (.seq (.plus space) stop))]]

/-- A command-line option with its value. -/
def flagPattern : Pattern :=
  .seqs [.notAfter isNameChar, .group 1 (.seq (.lit '-') (.opt (.lit '-'))),
    .group 2 (.plus (.char isNameChar)), .group 3 (.alt (.lit '=') (.plus space)),
    .group 4 valuePattern]

def queryPattern : Pattern :=
  .seqs [.group 1 (.char fun x => x == '?' || x == '&'), .group 2 (.plus (.char isNameChar)),
    .group 3 (.lit '='), .group 4 (.star (.char fun x => x != '&' && x != '#' && !isSpace x))]

def assignmentPattern : Pattern :=
  .seqs [.notAfter isNameChar, .group 1 (.seq (.char isLetter) nameTail),
    .group 2 (.seqs [.star space, separator, .star space]), .group 3 valuePattern]

def keywordPattern : Pattern :=
  .seqs [.group 1 (.seqs [.notAfter isNameChar, .boundary (isWord lib),
      .alts (["password", "secret", "token", "credential", "cookie", "rpcauth", "rpcuser",
        "private key"].map word),
      .boundary (isWord lib), .star space, .opt separator, .plus space]),
    .group 2 (.plus (.char fun x => !isSpace x && !",;\x7d".toList.contains x))]

/-- A replacement that keeps the given groups in front when the key is sensitive. -/
def keep (groups : List ℕ) (key : ℕ) (found : Str) (d : Cursor) : Str :=
  if keyIsSensitive (d.captured key) then groups.flatMap d.captured ++ redacted else found

def redactUrls : Str → Str := sub (urlPattern lib) fun _ d => d.captured 1 ++ redacted ++ ['@']

def redactHeaders : Str → Str := sub headerPattern (keep [1] 2)

def redactAuthorization : Str → Str :=
  sub (authorizationPattern lib) fun _ d => d.captured 1 ++ redacted

def redactFlags : Str → Str := sub flagPattern (keep [1, 2, 3] 2)

def redactQueries : Str → Str := sub queryPattern (keep [1, 2, 3] 2)

def redactAssignments : Str → Str := sub assignmentPattern (keep [1, 2] 1)

def redactKeywords : Str → Str := sub (keywordPattern lib) fun _ d => d.captured 1 ++ redacted

/-- The substitutions, one after the other. -/
def redactText (structured : Str) : Str :=
  redactKeywords lib <| redactAssignments <| redactQueries <| redactFlags <|
    redactAuthorization lib <| redactHeaders <| redactUrls lib structured

/-- `redact_runtime_value`, where serialized texts nest less than `n` deep. -/
def redactWithin : ℕ → ℕ → Str → Except PythonError Str
  | 0, _, _ => .ok []
  | n + 1, room, value => do
    let structured ← redactFragments lib (redactWithin n) room (value.length + 1) none value
    match structured with
    | none => return redacted
    | some structured => return redactText lib structured

/-- `redact_runtime_value` where `_redact_value` calls it. -/
def redactAt (room : ℕ) (value : Str) : Except PythonError Str := redactWithin lib (value.length + 1) room value

def redactRuntimeValue (value : Str) : Except PythonError Str := redactAt lib lib.room value

def redactOutput (value : Data) : Except PythonError Data :=
  redactValue lib (redactAt lib) lib.room [] value

section
variable {lib}

theorem strip_length_le (s : Str) : (strip s).length ≤ s.length := by
  have hright : strip s <+: s.dropWhile isSpace := List.rdropWhile_prefix _ _
  have hleft := (List.dropWhile_suffix (l := s) isSpace).length_le
  exact hright.length_le.trans hleft

theorem parseLoop_str (n : ℕ) (s : Str) : parseLoop lib (n + 1) (.str s) =
    match lib.loads (strip s) with
    | .ok v => parseLoop lib n v
    | .error e =>
      match e.pastLoads with
      | some e => .error e
      | none =>
        match lib.literalEval (strip s) with
        | .ok v => parseLoop lib n v
        | .error e =>
          match e.pastLiteral with
          | some e => .error e
          | none => .ok none := rfl

/-- One pass of the parse loop leaves shorter texts. -/
theorem parseLoop_step {n : ℕ} {s : Str} {w : Data} (h : parseLoop lib (n + 1) (.str s) = .ok (some w)) :
    ∃ v, parseLoop lib n v = .ok (some w) ∧ ∀ leaf ∈ leaves v, leaf.length < s.length := by
  have hstrip := strip_length_le s
  rw [parseLoop_str] at h
  cases hloads : lib.loads (strip s) with
  | ok v =>
    rw [hloads] at h
    exact ⟨v, h, fun leaf hleaf => (lib.loads_shorter _ _ hloads leaf hleaf).trans_le hstrip⟩
  | error e =>
    simp only [hloads] at h
    cases hpast : e.pastLoads with
    | some e =>
      rw [hpast] at h
      cases h
    | none =>
      rw [hpast] at h
      cases hliteral : lib.literalEval (strip s) with
      | ok v =>
        rw [hliteral] at h
        exact ⟨v, h, fun leaf hleaf => (lib.literalEval_shorter _ _ hliteral leaf hleaf).trans_le hstrip⟩
      | error e =>
        simp only [hliteral] at h
        cases hraised : e.pastLiteral with
        | some e =>
          rw [hraised] at h
          cases h
        | none =>
          rw [hraised] at h
          cases h

theorem parseLoop_leaves {n bound : ℕ} {v w : Data} (hv : ∀ leaf ∈ leaves v, leaf.length < bound)
    (h : parseLoop lib n v = .ok (some w)) : ∀ leaf ∈ leaves w, leaf.length < bound := by
  induction n generalizing v with
  | zero =>
    obtain rfl := Option.some.inj (Except.ok.inj h)
    exact hv
  | succ n ih =>
    cases v with
    | str s =>
      obtain ⟨v, hloop, hshorter⟩ := parseLoop_step h
      have hs : s.length < bound := hv s (by simp [leaves])
      exact ih (fun leaf hleaf => (hshorter leaf hleaf).trans hs) hloop
    | _ =>
      obtain rfl := Option.some.inj (Except.ok.inj h)
      exact hv

/-- What is parsed holds shorter texts. -/
theorem parseSerialized_leaves {value : Str} {v : Data}
    (h : parseSerialized lib value = .ok (some v)) : ∀ leaf ∈ leaves v, leaf.length < value.length := by
  rw [parseSerialized] at h
  cases hloop : parseLoop lib 3 (.str value) with
  | error e =>
    rw [hloop] at h
    cases h
  | ok candidate =>
    rw [hloop] at h
    have hfilter : candidate.filter isContainer = some v := Except.ok.inj h
    rw [Option.filter_eq_some_iff] at hfilter
    obtain ⟨rfl, -⟩ := hfilter
    obtain ⟨w, hrest, hshorter⟩ := parseLoop_step hloop
    exact parseLoop_leaves hshorter hrest

theorem strOf_eq_ok {printable : Char → Bool} {v : Data} {name : Str} :
    strOf printable v = .ok name ↔ intsFit v ∧ name = text printable v := by
  unfold strOf
  split
  · next hfit => simp [hfit, eq_comm]
  · next hfit => simp [hfit]

variable {f g : ℕ → Str → Except PythonError Str}

mutual

/-- Redaction calls itself on the texts of a value only. -/
theorem redactValue_congr : ∀ (v : Data) (room : ℕ) (key : Str), (∀ s ∈ leaves v, ∀ room, f room s = g room s) →
    redactValue lib f room key v = redactValue lib g room key v
  | .dict es, room, key, h => by
    rw [redactValue, redactValue]
    cases room with
    | zero => rfl
    | succ room => rw [descend, descend, redactEntries_congr es room h]
  | .list xs, room, key, h => by
    rw [redactValue, redactValue]
    cases room with
    | zero => rfl
    | succ room => rw [descend, descend, redactItems_congr xs room h]
  | .tuple xs, room, key, h => by
    rw [redactValue, redactValue]
    cases room with
    | zero => rfl
    | succ room => rw [descend, descend, redactItems_congr xs room h]
  | .str s, room, key, h => by rw [redactValue, redactValue, h s (by simp [leaves])]
  | .none, _, _, _ | .ellipsis, _, _, _ | .bool _, _, _, _ | .int _, _, _, _ | .float _, _, _, _
  | .complex _, _, _, _ | .bytes _, _, _, _ | .set _, _, _, _ => by rw [redactValue, redactValue] <;> nofun

theorem redactItems_congr : ∀ (xs : List Data) (room : ℕ), (∀ s ∈ itemLeaves xs, ∀ room, f room s = g room s) →
    redactItems lib f room xs = redactItems lib g room xs
  | [], _, _ => rfl
  | x :: xs, room, h => by
    rw [redactItems, redactItems, redactValue_congr x room [] fun s hs => h s (by simp [itemLeaves, hs]),
      redactItems_congr xs room fun s hs => h s (by simp [itemLeaves, hs])]

theorem redactEntries_congr : ∀ (es : List (Data × Data)) (room : ℕ),
    (∀ s ∈ entryLeaves es, ∀ room, f room s = g room s) →
      redactEntries lib f room es = redactEntries lib g room es
  | [], _, _ => rfl
  | (k, v) :: es, room, h => by
    have hvalue : ∀ name, redactValue lib f room name v = redactValue lib g room name v :=
      fun name => redactValue_congr v room name fun s hs => h s (by simp [entryLeaves, hs])
    simp only [redactEntries, hvalue, redactEntries_congr es room fun s hs => h s (by simp [entryLeaves, hs])]

end

theorem toList_length_le (o : Option Char) : o.toList.length ≤ 1 := by cases o <;> simp

theorem surroundingQuote_length {before : Option Char} {after : Str} :
    (surroundingQuote before after).toList.length ≤ before.toList.length ∧
      (surroundingQuote before after).toList.length ≤ after.length := by
  unfold surroundingQuote
  split
  · split <;> simp
  · simp

/-- What a round of the loop over the fragments can come to. -/
theorem nextRound_cases (before : Option Char) (value : Str) :
    ((∀ a ∈ value, isOpener a = false) ∧ nextRound before value = .finished value) ∨
    ∃ plain c rest, value = plain ++ c :: rest ∧ (∀ a ∈ plain, isOpener a = false) ∧ isOpener c ∧
      (looksSerializedStart c rest = false ∧ nextRound before value = .skipped (plain ++ [c]) rest ∨
        looksSerializedStart c rest ∧
          (containerEnd c rest = none ∧ nextRound before value = .unclosed ∨
            ∃ len quote, containerEnd c rest = some len ∧
              quote = (surroundingQuote (plain.getLast?.or before) (rest.drop len)).toList ∧
              nextRound before value =
                .found plain (quote ++ c :: rest.take len ++ quote) ((rest.drop len).drop quote.length))) := by
  have hsplit := List.takeWhile_append_dropWhile (l := value) (p := fun a => !isOpener a)
  have hplain : ∀ a ∈ value.takeWhile (!isOpener ·), isOpener a = false :=
    fun a ha => by simpa using List.mem_takeWhile_imp ha
  cases hdrop : value.dropWhile (!isOpener ·) with
  | nil =>
    rw [hdrop, List.append_nil] at hsplit
    rw [hsplit] at hplain
    refine .inl ⟨hplain, ?_⟩
    unfold nextRound
    simp only [hdrop, hsplit]
  | cons c rest =>
    have hopener : isOpener c := by
      have hne : value.dropWhile (!isOpener ·) ≠ [] := by simp [hdrop]
      have hhead := List.head_dropWhile_not (fun a => !isOpener a) hne
      simpa [hdrop] using hhead
    refine .inr ⟨_, c, rest, hdrop ▸ hsplit.symm, hplain, hopener, ?_⟩
    unfold nextRound
    simp only [hdrop]
    cases hlooks : looksSerializedStart c rest with
    | false => exact .inl ⟨rfl, rfl⟩
    | true =>
      refine .inr ⟨rfl, ?_⟩
      cases hend : containerEnd c rest with
      | none => exact .inl ⟨rfl, rfl⟩
      | some len => exact .inr ⟨len, _, rfl, rfl, rfl⟩

/-- What a round leaves is shorter, and a fragment lies in the text and the character before
it. -/
theorem nextRound_spec (before : Option Char) (value : Str) :
    (∀ plain rest, nextRound before value = .skipped plain rest → rest.length < value.length) ∧
    ∀ plain fragment rest, nextRound before value = .found plain fragment rest →
      fragment.length ≤ before.toList.length + value.length ∧ rest.length < value.length := by
  rcases nextRound_cases before value with ⟨-, hround⟩ |
    ⟨plain, c, rest, rfl, -, -, ⟨-, hround⟩ | ⟨-, ⟨-, hround⟩ | ⟨len, quote, -, hquote, hround⟩⟩⟩
  · rw [hround]
    exact ⟨nofun, nofun⟩
  · rw [hround]
    refine ⟨fun plain' rest' h => ?_, nofun⟩
    simp only [Round.skipped.injEq] at h
    obtain ⟨-, rfl⟩ := h
    rw [List.length_append, List.length_cons]
    omega
  · rw [hround]
    exact ⟨nofun, nofun⟩
  · rw [hround]
    refine ⟨nofun, fun plain' fragment rest' h => ?_⟩
    simp only [Round.found.injEq] at h
    obtain ⟨-, rfl, rfl⟩ := h
    obtain ⟨hbefore, hafter⟩ := @surroundingQuote_length (plain.getLast?.or before) (rest.drop len)
    rw [← hquote] at hbefore hafter
    have hopen : (plain.getLast?.or before).toList.length ≤ before.toList.length + plain.length := by
      cases plain with
      | nil => simp
      | cons a as =>
        have hone := toList_length_le ((a :: as).getLast?.or before)
        rw [List.length_cons]
        omega
    constructor
    · simp only [List.length_append, List.length_cons, List.length_take, List.length_drop] at hafter ⊢
      omega
    · simp only [List.length_append, List.length_cons, List.length_drop]
      omega

/-- The loop over the fragments calls itself on texts shorter than the text and the
character before it. -/
theorem redactFragments_congr {bound : ℕ} (h : ∀ s, s.length < bound → ∀ room, f room s = g room s) (room n : ℕ)
    {before : Option Char} {value : Str} (hbound : before.toList.length + value.length ≤ bound) :
    redactFragments lib f room n before value = redactFragments lib g room n before value := by
  induction n generalizing before value with
  | zero => rfl
  | succ n ih =>
    obtain ⟨hskipped, hfound⟩ := nextRound_spec before value
    rw [redactFragments, redactFragments]
    cases hround : nextRound before value with
    | finished plain => rfl
    | unclosed => rfl
    | skipped plain rest =>
      have hroom := hskipped plain rest hround
      have hlast := toList_length_le plain.getLast?
      simp only
      rw [ih (by omega)]
    | found plain fragment rest =>
      obtain ⟨hfragment, hroom⟩ := hfound plain fragment rest hround
      have hlast := toList_length_le fragment.getLast?
      simp only
      rw [ih (by omega)]
      cases hparsed : parseSerialized lib fragment with
      | error e => rfl
      | ok parsed =>
        cases parsed with
        | none => rfl
        | some v =>
          have hleaves := parseSerialized_leaves hparsed
          have hvalue : redactValue lib f room [] v = redactValue lib g room [] v :=
            redactValue_congr v room [] fun s hs => h s (by
              have hlt := hleaves s hs
              omega)
          change (redactValue lib f room [] v).bind _ = (redactValue lib g room [] v).bind _
          rw [hvalue]

end

variable {lib}

/-- Enough room for the texts in a text is as good as more. -/
theorem redactWithin_congr {n m : ℕ} {value : Str} (hn : value.length < n) (hm : value.length < m) (room : ℕ) :
    redactWithin lib n room value = redactWithin lib m room value := by
  induction n generalizing m value room with
  | zero => cases hn
  | succ n ih =>
    cases m with
    | zero => cases hm
    | succ m =>
      have hshorter : ∀ s : Str, s.length < value.length →
          ∀ room, redactWithin lib n room s = redactWithin lib m room s :=
        fun s hs room => ih (by omega) (by omega) room
      rw [redactWithin, redactWithin, redactFragments_congr hshorter _ _ (by simp)]

/-- `redact_runtime_value` as it calls itself. -/
theorem redactAt_eq (room : ℕ) (value : Str) : redactAt lib room value = do
    let structured ← redactFragments lib (redactAt lib) room (value.length + 1) none value
    match structured with
    | none => return redacted
    | some structured => return redactText lib structured := by
  have hshorter : ∀ s : Str, s.length < value.length →
      ∀ room, redactWithin lib value.length room s = redactAt lib room s :=
    fun s hs room => redactWithin_congr hs (Nat.lt_succ_self _) room
  rw [redactAt, redactWithin, redactFragments_congr hshorter _ _ (by simp)]

theorem redactRuntimeValue_eq (value : Str) : redactRuntimeValue lib value = do
    let structured ← redactFragments lib (redactAt lib) lib.room (value.length + 1) none value
    match structured with
    | none => return redacted
    | some structured => return redactText lib structured := redactAt_eq lib.room value

/-- The loop over the fragments has enough rounds. -/
theorem redactFragments_rounds {redact : ℕ → Str → Except PythonError Str} {room n m : ℕ} {before : Option Char}
    {value : Str} (hn : value.length < n) (hm : value.length < m) :
    redactFragments lib redact room n before value = redactFragments lib redact room m before value := by
  induction n generalizing m before value with
  | zero => cases hn
  | succ n ih =>
    cases m with
    | zero => cases hm
    | succ m =>
      obtain ⟨hskipped, hfound⟩ := nextRound_spec before value
      rw [redactFragments, redactFragments]
      cases hround : nextRound before value with
      | finished plain => rfl
      | unclosed => rfl
      | skipped plain rest =>
        have hroom := hskipped plain rest hround
        simp only
        rw [ih (m := m) (by omega) (by omega)]
      | found plain fragment rest =>
        obtain ⟨-, hroom⟩ := hfound plain fragment rest hround
        simp only
        rw [ih (m := m) (by omega) (by omega)]

end BitcoinRpcOperator.Redaction
