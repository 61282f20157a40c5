import BitcoinRpcOperator.StructuredRedaction

/-!
# Redaction of Python literals

What `redact_runtime_value` makes of the `repr` of a dictionary. Whether a bracket starts
serialized data is guessed from what follows it: a dictionary whose first key is an integer
and a list whose first element is a tuple are passed over, and what stands in them is
exposed to the substitutions as plain text.
-/

namespace BitcoinRpcOperator.Redaction
open Text Backtracking PythonValues
open RaisedExceptions (bind_eq_ok)

mutual

/-- Dictionaries with string or integer keys, lists, tuples, strings, integers, booleans and
`None`. -/
def LiteralLike : Data → Prop
  | .dict es => EntriesLiteral es
  | .list xs => ItemsLiteral xs
  | .tuple xs => ItemsLiteral xs
  | .none | .bool _ | .int _ | .str _ => True
  | .ellipsis | .float _ | .complex _ | .bytes _ | .set _ => False

def ItemsLiteral : List Data → Prop
  | [] => True
  | x :: xs => LiteralLike x ∧ ItemsLiteral xs

def EntriesLiteral : List (Data × Data) → Prop
  | [] => True
  | (k, v) :: es => ((∃ s, k = .str s) ∨ ∃ n, k = .int n) ∧ LiteralLike v ∧ EntriesLiteral es

end

def isSecretKey : Data → Bool
  | .str s => keyIsSensitive s
  | _ => false

mutual

/-- The value with `secret` stored under every sensitive string key. -/
def withSecret (secret : Data) : Data → Data
  | .dict es => .dict (entriesWithSecret secret es)
  | .list xs => .list (itemsWithSecret secret xs)
  | .tuple xs => .tuple (itemsWithSecret secret xs)
  | v => v

def itemsWithSecret (secret : Data) : List Data → List Data
  | [] => []
  | x :: xs => withSecret secret x :: itemsWithSecret secret xs

def entriesWithSecret (secret : Data) : List (Data × Data) → List (Data × Data)
  | [] => []
  | (k, v) :: es =>
    (k, if isSecretKey k then secret else withSecret secret v) :: entriesWithSecret secret es

end

/-- The value without what is stored under sensitive string keys. -/
def shape (d : Data) : Data := withSecret .none d

/-- The values differ at most in what is stored under sensitive string keys. -/
def IsChoice (d x : Data) : Prop := shape x = shape d

/-- Whether the start of a container is recognised in its `repr`. -/
def isRecognised : Data → Bool
  | .dict ((.int _, _) :: _) => false
  | .dict _ => true
  | .list (.tuple _ :: _) => false
  | .list _ => true
  | _ => false

/-- A part of a `repr`: a recognised container, or a key, an atom or punctuation outside
of those. -/
inductive Part where
  | container (v : Data)
  | key (k : Data)
  | atom (v : Data)
  | mark (s : Str)

mutual

def parts : Data → List Part
  | .dict es =>
    if isRecognised (.dict es) then [.container (.dict es)]
    else entryParts ['\x7b'] es ++ [.mark ['\x7d']]
  | .list xs =>
    if isRecognised (.list xs) then [.container (.list xs)]
    else itemParts ['['] xs ++ [.mark [']']]
  | .tuple [] => [.mark "()".toList]
  | .tuple [x] => .mark ['('] :: parts x ++ [.mark ",)".toList]
  | .tuple (x :: y :: xs) => .mark ['('] :: parts x ++ .mark ", ".toList :: parts y ++
      itemParts ", ".toList xs ++ [.mark [')']]
  | v => [.atom v]

def itemParts (sep : Str) : List Data → List Part
  | [] => []
  | x :: xs => .mark sep :: parts x ++ itemParts ", ".toList xs

def entryParts (sep : Str) : List (Data × Data) → List Part
  | [] => []
  | (k, v) :: es =>
    .mark sep :: .key k :: .mark ": ".toList :: parts v ++ entryParts ", ".toList es

end

/-- No bracket in the text is taken for the start of serialized data. -/
def Passes (s : Str) : Prop := ∀ front c rest, s = front ++ c :: rest → isOpener c →
  ∀ more, looksSerializedStart c (rest ++ more) = false

/-- A key that is not sensitive. -/
def Part.Harmless : Part → Prop
  | .key k => ¬ isSecretKey k
  | _ => True

/-- A key or an atom that is not taken for serialized data. -/
def Part.Plain (lib : Library) : Part → Prop
  | .key k => Passes (repr lib.printable k)
  | .atom v => Passes (repr lib.printable v)
  | _ => True

/-- `json.loads` leaves the text to `ast.literal_eval`. -/
def NoJson (lib : Library) (s : Str) : Prop := ∃ e, lib.loads s = .error e ∧ e.pastLoads = none

/-- A container that is read back, as JSON or as a literal. -/
def Part.Read (lib : Library) : Part → Prop
  | .container v => lib.loads (repr lib.printable v) = .ok v ∨
      NoJson lib (repr lib.printable v) ∧ lib.literalEval (repr lib.printable v) = .ok v
  | _ => True

/-- A container that is taken for neither. -/
def Part.Refused (lib : Library) : Part → Prop
  | .container v => NoJson lib (repr lib.printable v) ∧
      ∃ e, lib.literalEval (repr lib.printable v) = .error e ∧ e.pastLiteral = none
  | _ => False

/-- A container with texts that are redacted without exceptions, and within the room. -/
def Part.Clean (lib : Library) : Part → Prop
  | .container v => TextsClean lib (CleanAt lib) lib.room [] v
  | _ => True

/-- No sensitive key is exposed. -/
def Unexposed (d : Data) : Prop := ∀ p ∈ parts (shape d), p.Harmless

/-- No exposed key and no exposed text that is not under a sensitive key has a bracket that is
taken for the start of serialized data. -/
def Unmistaken (lib : Library) (d : Data) : Prop := ∀ p ∈ parts (shape d), p.Plain lib

/-- The texts in recognised containers are redacted without exceptions. -/
def ContainersClean (lib : Library) (d : Data) : Prop := ∀ p ∈ parts (shape d), p.Clean lib

/-- Some recognised container in the `repr` is taken for no literal. -/
def Refuses (lib : Library) (d : Data) : Prop := ∃ p ∈ parts d, p.Refused lib

/-- `repr` returns, and the parsers do on the recognised containers in it. -/
structure Settled (lib : Library) (d : Data) : Prop where
  fits : intsFit d
  parts : ∀ p ∈ parts d, p.Read lib ∨ p.Refused lib

/-- Redaction gives the same string for both. -/
def SameRedaction (lib : Library) (x y : Data) : Prop :=
  ∃ out, redactRuntimeValue lib (repr lib.printable x) = .ok out ∧
    redactRuntimeValue lib (repr lib.printable y) = .ok out

/-- The dictionary exposes no sensitive key, its exposed texts are not mistaken, and what is in
containers is redacted without exceptions. -/
structure Covered (lib : Library) (d : Data) : Prop where
  keys : Unexposed d
  plain : Unmistaken lib d
  texts : ContainersClean lib d

/-- Redaction does not tell settled choices of the sensitive values apart, unless one is refused
and the other is not. -/
def HidesChoices (lib : Library) (d : Data) : Prop :=
  ∀ x y, LiteralLike x → LiteralLike y → IsChoice d x → IsChoice d y → Settled lib x → Settled lib y →
    (Refuses lib x ↔ Refuses lib y) → SameRedaction lib x y

section
variable {printable : Char → Bool}

theorem quoted_reprChar {q : Char} (hq : isQuote q) (c : Char) : Quoted q (reprChar printable q c) := by
  unfold reprChar
  split
  · exact .escape .nil
  · next hspecial =>
    have hne : c ≠ q ∧ c ≠ '\\' := by simpa using hspecial
    split_ifs
    · exact .escape .nil
    · exact .escape .nil
    · exact .escape .nil
    · exact .escape (quoted_hex hq _ _)
    · exact .plain hne.1 hne.2 .nil
    · exact .escape (quoted_hex hq _ _)
    · exact .escape (quoted_hex hq _ _)
    · exact .escape (quoted_hex hq _ _)

theorem isQuote_reprQuote (s : Str) : isQuote (reprQuote s) := by
  unfold reprQuote
  split <;> rfl

theorem balanced_reprStr (s : Str) : Balanced (reprStr printable s) :=
  .quote (isQuote_reprQuote s) (.flatMap (quoted_reprChar (isQuote_reprQuote s)) s)

theorem balanced_key {k : Data} (h : (∃ s, k = .str s) ∨ ∃ n, k = .int n) :
    Balanced (repr printable k) := by
  rcases h with ⟨s, rfl⟩ | ⟨n, rfl⟩
  · exact balanced_reprStr s
  · exact balanced_intText n

mutual

theorem balanced_repr : ∀ v : Data, LiteralLike v → Balanced (repr printable v)
  | .dict es, h => .enclose (by decide) (.joined (.of_inert (by decide)) (balanced_reprEntries es h))
  | .list xs, h => .enclose (by decide) (.joined (.of_inert (by decide)) (balanced_reprItems xs h))
  | .tuple [], _ => .of_inert (by decide : ∀ c ∈ "()".toList, isInert c)
  | .tuple [x], h => .inert (by decide) ((balanced_repr x h.1).append (.of_inert (by decide)))
  | .tuple (x :: y :: xs), h =>
    .inert (by decide) ((Balanced.joined (.of_inert (by decide))
      (balanced_reprItems (x :: y :: xs) h)).append (.of_inert (by decide)))
  | .none, _ => .of_inert (by decide : ∀ c ∈ "None".toList, isInert c)
  | .bool true, _ => .of_inert (by decide : ∀ c ∈ "True".toList, isInert c)
  | .bool false, _ => .of_inert (by decide : ∀ c ∈ "False".toList, isInert c)
  | .int n, _ => balanced_intText n
  | .str s, _ => balanced_reprStr s

theorem balanced_reprItems : ∀ xs : List Data, ItemsLiteral xs →
    ∀ p ∈ reprItems printable xs, Balanced p
  | [], _ => by simp [reprItems]
  | x :: xs, h => by
    rw [reprItems, List.forall_mem_cons]
    exact ⟨balanced_repr x h.1, balanced_reprItems xs h.2⟩

theorem balanced_reprEntries : ∀ es : List (Data × Data), EntriesLiteral es →
    ∀ p ∈ reprEntries printable es, Balanced p
  | [], _ => by simp [reprEntries]
  | (k, v) :: es, h => by
    rw [reprEntries, List.forall_mem_cons]
    exact ⟨((balanced_key h.1).append (.of_inert (by decide))).append (balanced_repr v h.2.1),
      balanced_reprEntries es h.2.2⟩

end

theorem repr_int (n : ℤ) : PythonValues.repr printable (.int n) = intText n := rfl

theorem repr_str (s : Str) : PythonValues.repr printable (.str s) =
    reprQuote s :: (s.flatMap (reprChar printable (reprQuote s)) ++ [reprQuote s]) := rfl

theorem reprQuote_mem (s : Str) : reprQuote s ∈ "'\"\\[\x7b]-0123456789".toList := by
  unfold reprQuote
  split <;> decide

/-- The `repr` of a list after its bracket. -/
theorem looks_repr : ∀ {v : Data}, LiteralLike v → (∀ xs, v ≠ .tuple xs) → ∀ rest,
    looksSerializedStart '[' (repr printable v ++ rest)
  | .none, _, _, rest => rfl
  | .bool true, _, _, rest => rfl
  | .bool false, _, _, rest => rfl
  | .int n, _, _, rest => by
    obtain ⟨c, more, heq, hc, -⟩ := intText_cases n
    rw [repr_int, heq]
    rcases hc with hc | rfl
    · exact looksSerializedStart_of_mem (digit_mem hc) _
    · exact looksSerializedStart_of_mem (by decide) _
  | .str s, _, _, rest => by
    rw [repr_str]
    exact looksSerializedStart_of_mem (reprQuote_mem s) _
  | .list xs, _, _, rest => looksSerializedStart_of_mem (by decide) _
  | .dict es, _, _, rest => looksSerializedStart_of_mem (by decide) _
  | .tuple xs, _, h, _ => absurd rfl (h xs)

theorem looksSerializedStart_quote {q : Char} (h : isQuote q) (rest : Str) :
    looksSerializedStart '\x7b' (q :: rest) := by
  rcases (by simpa [isQuote] using h : q = '\'' ∨ q = '"') with rfl | rfl <;> rfl

/-- A recognised container in a `repr`. -/
theorem repr_recognised {v : Data} (hlike : LiteralLike v) (hrec : isRecognised v) :
    ∃ c close body, repr printable v = c :: body ++ [close] ∧ closer c = some close ∧
      Balanced body ∧ ∀ rest, looksSerializedStart c (body ++ close :: rest) := by
  match v, hlike, hrec with
  | .list xs, hlike, hrec =>
    refine ⟨'[', ']', _, rfl, rfl, .joined (.of_inert (by decide)) (balanced_reprItems xs hlike),
      fun rest => ?_⟩
    match xs, hlike, hrec with
    | [], _, _ => rfl
    | x :: xs, hlike, hrec =>
      have hnot : ∀ ys, x ≠ .tuple ys := by
        rintro ys rfl
        cases hrec
      rw [reprItems, joined_cons, List.append_assoc]
      exact looks_repr hlike.1 hnot _
  | .dict es, hlike, hrec =>
    refine ⟨'\x7b', '\x7d', _, rfl, rfl,
      .joined (.of_inert (by decide)) (balanced_reprEntries es hlike), fun rest => ?_⟩
    match es, hlike, hrec with
    | [], _, _ => rfl
    | (k, v) :: es, hlike, hrec =>
      rcases hlike.1 with ⟨s, rfl⟩ | ⟨n, rfl⟩
      · rw [reprEntries, joined_cons, repr_str]
        simp only [List.append_assoc, List.cons_append]
        exact looksSerializedStart_quote (isQuote_reprQuote s) _
      · cases hrec

end

/-- Redaction of a value does not depend on what is under its sensitive keys. -/
theorem isSecretKey_text {lib : Library} {k : Data} (h : isSecretKey k) :
    keyIsSensitive (text lib.printable k) := by
  cases k with
  | str s => exact h
  | _ => cases h

section
variable {lib : Library} {f : ℕ → Str → Except PythonError Str} {secret : Data}

mutual

theorem redactValue_withSecret : ∀ (v : Data) (room : ℕ) (key : Str),
    redactValue lib f room key (withSecret secret v) = redactValue lib f room key v
  | .dict es, room, key => by
    rw [withSecret, redactValue, redactValue]
    simp only [redactEntries_withSecret es]
  | .list xs, room, key => by
    rw [withSecret, redactValue, redactValue]
    simp only [redactItems_withSecret xs]
  | .tuple xs, room, key => by
    rw [withSecret, redactValue, redactValue]
    simp only [redactItems_withSecret xs]
  | .none, _, _ | .ellipsis, _, _ | .bool _, _, _ | .int _, _, _ | .float _, _, _ | .complex _, _, _
  | .str _, _, _ | .bytes _, _, _ | .set _, _, _ => rfl

theorem redactItems_withSecret : ∀ (xs : List Data) (room : ℕ),
    redactItems lib f room (itemsWithSecret secret xs) = redactItems lib f room xs
  | [], _ => rfl
  | x :: xs, room => by
    rw [itemsWithSecret, redactItems, redactItems, redactValue_withSecret x,
      redactItems_withSecret xs]

theorem redactEntries_withSecret : ∀ (es : List (Data × Data)) (room : ℕ),
    redactEntries lib f room (entriesWithSecret secret es) = redactEntries lib f room es
  | [], _ => rfl
  | (k, v) :: es, room => by
    rw [entriesWithSecret, redactEntries, redactEntries, redactEntries_withSecret es]
    by_cases hk : isSecretKey k
    · have hname : ∀ name, strOf lib.printable k = .ok name → keyIsSensitive name := by
        intro name h
        obtain ⟨-, rfl⟩ := strOf_eq_ok.1 h
        exact isSecretKey_text hk
      cases hstr : strOf lib.printable k with
      | error e => rfl
      | ok name =>
        change ((redactValue lib f room name _).bind _) = ((redactValue lib f room name _).bind _)
        rw [redactValue_hidden (hname name hstr), redactValue_hidden (hname name hstr)]
    · simp only [if_neg hk, redactValue_withSecret v]

end

end

section
variable {lib : Library}

/-- What the loop over the fragments comes to on a text, with rounds to spare. -/
def Runs (lib : Library) (before : Option Char) (value : Str) (r : Except PythonError (Option Str)) :
    Prop :=
  ∀ n, value.length < n → redactFragments lib (redactAt lib) lib.room n before value = r

/-- Put a text before what the loop comes to. -/
def after (front : Except PythonError Str) (r : Except PythonError (Option Str)) :
    Except PythonError (Option Str) :=
  front.bind fun text => r.map (·.map (text ++ ·))

theorem after_after (a b : Str) (r : Except PythonError (Option Str)) :
    after (.ok a) (after (.ok b) r) = after (.ok (a ++ b)) r := by
  cases r with
  | error e => rfl
  | ok o => cases o <;> simp [after, Except.bind, Except.map]

theorem nextRound_cons {c : Char} (hc : isOpener c = false) (before : Option Char) (value : Str) :
    nextRound before (c :: value) = match nextRound (some c) value with
      | .finished plain => .finished (c :: plain)
      | .skipped plain rest => .skipped (c :: plain) rest
      | .unclosed => .unclosed
      | .found plain fragment rest => .found (c :: plain) fragment rest := by
  have htake : (c :: value).takeWhile (!isOpener ·) = c :: value.takeWhile (!isOpener ·) := by
    rw [List.takeWhile_cons]
    simp [hc]
  have hdrop : (c :: value).dropWhile (!isOpener ·) = value.dropWhile (!isOpener ·) := by
    rw [List.dropWhile_cons]
    simp [hc]
  have hlast : ∀ plain : Str, (c :: plain).getLast?.or before = plain.getLast?.or (some c) := by
    intro plain
    rw [List.getLast?_cons]
    cases plain.getLast? <;> rfl
  rw [nextRound, nextRound]
  simp only [htake, hdrop, hlast]
  cases value.dropWhile (!isOpener ·) with
  | nil => rfl
  | cons d rest =>
    simp only
    split_ifs
    · cases containerEnd d rest <;> rfl
    · rfl

theorem nextRound_skipped_ne {before : Option Char} {value plain rest : Str}
    (h : nextRound before value = .skipped plain rest) : plain ≠ [] := by
  unfold nextRound at h
  simp only at h
  split at h
  · cases h
  · split_ifs at h
    · split at h <;> cases h
    · simp only [Round.skipped.injEq] at h
      rw [← h.1]
      simp

/-- A character that is no bracket is passed over. -/
theorem Runs.plain {c : Char} (hc : isOpener c = false) {value : Str}
    {r : Except PythonError (Option Str)} (h : Runs lib (some c) value r) (before : Option Char) :
    Runs lib before (c :: value) (after (.ok [c]) r) := by
  intro n hn
  cases n with
  | zero => cases hn
  | succ n =>
    have hr := h (n + 1) (by rw [List.length_cons] at hn; omega)
    rw [redactFragments] at hr ⊢
    rw [nextRound_cons hc]
    cases hround : nextRound (some c) value with
    | finished plain =>
      rw [hround] at hr
      rw [← hr]
      rfl
    | unclosed =>
      rw [hround] at hr
      rw [← hr]
      rfl
    | skipped plain rest =>
      have hroom := (nextRound_spec (some c) value).1 plain rest hround
      have hlast : (c :: plain).getLast? = plain.getLast? := by
        have hne := nextRound_skipped_ne hround
        rw [List.getLast?_cons]
        cases h' : plain.getLast? with
        | none => exact absurd (List.getLast?_eq_none_iff.1 h') hne
        | some a => rfl
      rw [hround] at hr
      rw [← hr]
      simp only [hlast]
      rw [List.length_cons] at hn
      rw [redactFragments_rounds (m := n + 1) (by omega) (by omega)]
      cases redactFragments lib (redactAt lib) lib.room (n + 1) plain.getLast? rest with
      | error e => rfl
      | ok o => cases o <;> rfl
    | found plain fragment rest =>
      have hroom := ((nextRound_spec (some c) value).2 plain fragment rest hround).2
      rw [hround] at hr
      rw [← hr]
      rw [List.length_cons] at hn
      have hrest : redactFragments lib (redactAt lib) lib.room n fragment.getLast? rest =
          redactFragments lib (redactAt lib) lib.room (n + 1) fragment.getLast? rest :=
        redactFragments_rounds (by omega) (by omega)
      simp only [hrest]
      cases parseSerialized lib fragment with
      | error e => rfl
      | ok parsed =>
        cases parsed with
        | none => rfl
        | some v =>
          change ((redactValue lib _ _ [] v).bind _) = after _ ((redactValue lib _ _ [] v).bind _)
          cases redactValue lib (redactAt lib) lib.room [] v with
          | error e => rfl
          | ok v' =>
            change ((dumps compactStyle v').bind _) = after _ ((dumps compactStyle v').bind _)
            cases dumps compactStyle v' with
            | error e => rfl
            | ok text =>
              cases redactFragments lib (redactAt lib) lib.room (n + 1) fragment.getLast? rest with
              | error e => rfl
              | ok o => cases o <;> rfl

end

section
variable {lib : Library}

theorem after_nil (r : Except PythonError (Option Str)) : after (.ok []) r = r := by
  cases r with
  | error e => rfl
  | ok o => cases o <;> rfl

/-- A bracket that is not taken for the start of serialized data is passed over. -/
theorem Runs.skipped {c : Char} {value : Str} {r : Except PythonError (Option Str)}
    (hc : isOpener c) (hlooks : looksSerializedStart c value = false)
    (h : Runs lib (some c) value r) (before : Option Char) :
    Runs lib before (c :: value) (after (.ok [c]) r) := by
  intro n hn
  have hround : nextRound before (c :: value) = .skipped [c] value := by
    have htake : (c :: value).takeWhile (!isOpener ·) = [] := by
      rw [List.takeWhile_cons]
      simp [hc]
    have hdrop : (c :: value).dropWhile (!isOpener ·) = c :: value := by
      rw [List.dropWhile_cons]
      simp [hc]
    rw [nextRound]
    simp only [htake, hdrop, hlooks]
    rfl
  cases n with
  | zero => cases hn
  | succ n =>
    rw [List.length_cons] at hn
    rw [redactFragments, hround]
    simp only [List.getLast?_singleton]
    rw [h n (by omega)]
    cases r with
    | error e => rfl
    | ok o => cases o <;> rfl

theorem getLast?_cons_or (c : Char) (a : Str) (before : Option Char) :
    (c :: a).getLast?.or before = a.getLast?.or (some c) := by
  rw [List.getLast?_cons]
  cases a.getLast? <;> rfl

/-- A text none of whose brackets is taken for the start of serialized data is passed over. -/
theorem Runs.front {a value : Str} {r : Except PythonError (Option Str)} {before : Option Char}
    (ha : ∀ front c rest, a = front ++ c :: rest → isOpener c →
      looksSerializedStart c (rest ++ value) = false)
    (h : Runs lib (a.getLast?.or before) value r) :
    Runs lib before (a ++ value) (after (.ok a) r) := by
  induction a generalizing before with
  | nil =>
    rw [after_nil]
    exact h
  | cons c a ih =>
    rw [getLast?_cons_or] at h
    have hrest := ih (fun front d rest heq => ha (c :: front) d rest (by rw [heq]; rfl)) h
    rw [show c :: a = [c] ++ a from rfl, ← after_after, List.append_assoc]
    by_cases hc : isOpener c
    · exact .skipped hc (ha [] c a rfl hc) hrest before
    · exact .plain (by simpa using hc) hrest before

theorem Runs.passes {a value : Str} {r : Except PythonError (Option Str)} {before : Option Char}
    (ha : Passes a) (h : Runs lib (a.getLast?.or before) value r) :
    Runs lib before (a ++ value) (after (.ok a) r) :=
  .front (fun front c rest heq hc => ha front c rest heq hc value) h

theorem passes_of_plain {a : Str} (h : ∀ c ∈ a, isOpener c = false) : Passes a := by
  rintro front c rest rfl hc
  rw [h c (by simp)] at hc
  cases hc

/-- A container that is read back is parsed. -/
theorem parseSerialized_literal {c close : Char} {body : Str} {v : Data}
    (hc : closer c = some close) (hv : isContainer v)
    (hread : lib.loads (c :: body ++ [close]) = .ok v ∨
      NoJson lib (c :: body ++ [close]) ∧ lib.literalEval (c :: body ++ [close]) = .ok v) :
    parseSerialized lib (c :: body ++ [close]) = .ok (some v) := by
  rcases hread with hloads | ⟨⟨e, hloads, hpast⟩, hliteral⟩
  · exact parseSerialized_container hc hv hloads
  · rw [parseSerialized, parseLoop_str, strip_container hc, hloads]
    simp only [hpast, hliteral, parseLoop_container hv]
    exact congrArg Except.ok (by simp [hv])

/-- A container that is taken for no literal is not parsed. -/
theorem parseSerialized_refused {c close : Char} {body : Str} (hc : closer c = some close)
    (hloads : NoJson lib (c :: body ++ [close]))
    (hliteral : ∃ e, lib.literalEval (c :: body ++ [close]) = .error e ∧ e.pastLiteral = none) :
    parseSerialized lib (c :: body ++ [close]) = .ok none := by
  obtain ⟨e, hloads, hpast⟩ := hloads
  obtain ⟨e', hliteral, hpast'⟩ := hliteral
  rw [parseSerialized, parseLoop_str, strip_container hc, hloads]
  simp only [hpast, hliteral, hpast']
  rfl

theorem isContainer_recognised {v : Data} (h : isRecognised v) : isContainer v := by
  cases v <;> first | rfl | cases h

def Part.rendered (lib : Library) : Part → Except PythonError Str
  | .container v => (redactValue lib (redactAt lib) lib.room [] v).bind (dumps compactStyle)
  | .key k => .ok (PythonValues.repr lib.printable k)
  | .atom v => .ok (PythonValues.repr lib.printable v)
  | .mark s => .ok s

/-- What the loop makes of a part before what it makes of the rest. -/
def Part.onward (lib : Library) (p : Part) (r : Except PythonError (Option Str)) :
    Except PythonError (Option Str) :=
  match p with
  | .container v => do
    let parsed ← parseSerialized lib (PythonValues.repr lib.printable v)
    match parsed with
    | none => .ok none
    | some w => after ((Part.container w).rendered lib) r
  | .key k => after ((Part.key k).rendered lib) r
  | .atom v => after ((Part.atom v).rendered lib) r
  | .mark s => after ((Part.mark s).rendered lib) r

/-- A recognised container is redacted on its own. -/
theorem Runs.container {v : Data} {value : Str} {r : Except PythonError (Option Str)}
    {before : Option Char} (hlike : LiteralLike v) (hrec : isRecognised v)
    (hquote : ∀ q, before = some q → isQuote q = false) (h : ∀ b, Runs lib b value r) :
    Runs lib before (PythonValues.repr lib.printable v ++ value) ((Part.container v).onward lib r) := by
  intro n hn
  obtain ⟨c, close, body, htext, hclose, hbody, hlooks⟩ := repr_recognised hlike hrec
  rw [Part.onward, htext]
  rw [htext] at hn
  cases n with
  | zero => cases hn
  | succ n =>
    have hround : nextRound before (c :: body ++ [close] ++ value) =
        .found [] (c :: body ++ [close]) value := by
      rw [List.append_assoc, List.singleton_append]
      exact @nextRound_container before [] body value c close nofun (by simpa using hquote) hclose hbody
        (hlooks value)
    have hrest := h (c :: body ++ [close]).getLast? n (by
      simp only [List.length_append, List.length_cons] at hn
      omega)
    rw [redactFragments, hround]
    simp only [hrest]
    cases parseSerialized lib (c :: body ++ [close]) with
    | error e => rfl
    | ok parsed =>
      cases parsed with
      | none => rfl
      | some w =>
        change ((redactValue lib _ _ [] w).bind _) = after ((redactValue lib _ _ [] w).bind _) r
        cases redactValue lib (redactAt lib) lib.room [] w with
        | error e => rfl
        | ok w' =>
          change ((dumps compactStyle w').bind _) = after (dumps compactStyle w') r
          cases dumps compactStyle w' with
          | error e => rfl
          | ok text =>
            cases r with
            | error e => rfl
            | ok o => cases o <;> rfl

/-- What the loop makes of parts before what it makes of the rest. -/
def afterParts (lib : Library) (ps : List Part) (r : Except PythonError (Option Str)) :
    Except PythonError (Option Str) :=
  ps.foldr (Part.onward lib) r

theorem afterParts_nil (r : Except PythonError (Option Str)) : afterParts lib [] r = r := rfl

theorem afterParts_cons (p : Part) (ps : List Part) (r : Except PythonError (Option Str)) :
    afterParts lib (p :: ps) r = p.onward lib (afterParts lib ps r) := rfl

theorem afterParts_append (ps qs : List Part) (r : Except PythonError (Option Str)) :
    afterParts lib (ps ++ qs) r = afterParts lib ps (afterParts lib qs r) :=
  List.foldr_append

theorem Runs.mark {s value : Str} {r : Except PythonError (Option Str)} (before : Option Char)
    (hs : ∀ c ∈ s, isOpener c = false) (h : Runs lib (s.getLast?.or before) value r) :
    Runs lib before (s ++ value) (after ((Part.mark s).rendered lib) r) :=
  .passes (passes_of_plain hs) h

end

section
variable {lib : Library}

theorem not_quote_some {c : Char} (h : isQuote c = false) : ∀ q, some c = some q → isQuote q = false := by
  rintro q ⟨⟩
  exact h

/-- A dictionary that starts with an integer is not taken for serialized data. -/
theorem looks_intKey (n : ℤ) (rest : Str) :
    looksSerializedStart '\x7b' (PythonValues.repr lib.printable (.int n) ++ rest) = false := by
  obtain ⟨c, more, heq, hc, -⟩ := intText_cases n
  have hplain : isSpace c = false ∧ "'\"\\\x7d".toList.contains c = false := by
    rcases hc with hc | rfl
    · refine ⟨isSpace_digit hc, ?_⟩
      have hbound : 48 ≤ c.toNat ∧ c.toNat ≤ 57 := Char.isDigit_iff_toNat.1 hc
      have hall : ∀ n < 58, 48 ≤ n → "'\"\\\x7d".toList.contains (Char.ofNat n) = false := by decide
      rw [← Char.ofNat_toNat c]
      exact hall c.toNat (by omega) hbound.1
    · decide
  have hstrip : lstripBy isSpace (c :: (more ++ rest)) = c :: (more ++ rest) := by
    rw [lstripBy, List.dropWhile_cons, hplain.1]
    rfl
  rw [repr_int, heq, List.cons_append, looksSerializedStart]
  simp only [hstrip]
  rw [if_pos (by decide), hplain.2]

theorem repr_tuple (xs : List Data) (printable : Char → Bool) :
    ∃ more, PythonValues.repr printable (.tuple xs) = '(' :: more := by
  match xs with
  | [] => exact ⟨_, rfl⟩
  | [x] => exact ⟨_, rfl⟩
  | x :: y :: xs => exact ⟨_, rfl⟩

/-- A list that starts with a tuple is not taken for serialized data. -/
theorem looks_tuple (xs : List Data) (rest : Str) :
    looksSerializedStart '[' (PythonValues.repr lib.printable (.tuple xs) ++ rest) = false := by
  obtain ⟨more, heq⟩ := repr_tuple xs lib.printable
  rw [heq]
  rfl

theorem runs_atom {v : Data} (h : parts v = [.atom v]) {s : Str} {r : Except PythonError (Option Str)}
    {before : Option Char} (hready : ∀ p ∈ parts v, p.Plain lib) (hs : ∀ b, Runs lib b s r) :
    Runs lib before (PythonValues.repr lib.printable v ++ s) (afterParts lib (parts v) r) := by
  rw [h] at hready ⊢
  have hpasses : Passes (PythonValues.repr lib.printable v) := hready (.atom v) (by simp)
  exact .passes hpasses (hs _)

theorem runs_key {k : Data} (hk : Passes (PythonValues.repr lib.printable k)) {value : Str}
    {r : Except PythonError (Option Str)} (h : Runs lib (some ' ') value r) (before : Option Char) :
    Runs lib before (PythonValues.repr lib.printable k ++ (": ".toList ++ value))
      (after ((Part.key k).rendered lib) (after ((Part.mark ": ".toList).rendered lib) r)) :=
  .passes hk (.mark _ (by decide) h)

theorem int_of_not_recognised {k v : Data} {es : List (Data × Data)}
    (h : ¬ isRecognised (.dict ((k, v) :: es))) : ∃ n, k = .int n := by
  cases k <;> first | exact ⟨_, rfl⟩ | exact absurd rfl h

theorem tuple_of_not_recognised {x : Data} {xs : List Data} (h : ¬ isRecognised (.list (x :: xs))) :
    ∃ ys, x = .tuple ys := by
  cases x <;> first | exact ⟨_, rfl⟩ | exact absurd rfl h

section
variable (printable : Char → Bool)

theorem repr_list (xs : List Data) : PythonValues.repr printable (.list xs) =
    '[' :: joined ", ".toList (reprItems printable xs) ++ [']'] := rfl

theorem repr_dict (es : List (Data × Data)) : PythonValues.repr printable (.dict es) =
    '\x7b' :: joined ", ".toList (reprEntries printable es) ++ ['\x7d'] := rfl

theorem repr_single (x : Data) : PythonValues.repr printable (.tuple [x]) =
    '(' :: PythonValues.repr printable x ++ ",)".toList := rfl

theorem repr_several (x y : Data) (xs : List Data) :
    PythonValues.repr printable (.tuple (x :: y :: xs)) = '(' :: joined ", ".toList
      (PythonValues.repr printable x :: PythonValues.repr printable y :: reprItems printable xs) ++
        [')'] := rfl

end

mutual

/-- The loop goes over the `repr` of a literal part by part. -/
theorem runs_parts : ∀ v : Data, LiteralLike v → (∀ p ∈ parts v, p.Plain lib) →
    ∀ {before : Option Char} {s : Str} {r : Except PythonError (Option Str)},
      (∀ q, before = some q → isQuote q = false) → (∀ b, Runs lib b s r) →
      Runs lib before (PythonValues.repr lib.printable v ++ s) (afterParts lib (parts v) r)
  | .dict [], hlike, hready, before, s, r, hquote, hs =>
    .container hlike rfl hquote hs
  | .dict ((k, v) :: es), hlike, hready, before, s, r, hquote, hs => by
    by_cases hrec : isRecognised (.dict ((k, v) :: es))
    · have hparts : parts (.dict ((k, v) :: es)) = [.container (.dict ((k, v) :: es))] := by
        rw [parts, if_pos hrec]
      rw [hparts]
      exact .container hlike hrec hquote hs
    · obtain ⟨n, rfl⟩ := int_of_not_recognised hrec
      have hparts : parts (.dict ((.int n, v) :: es)) =
          entryParts ['\x7b'] ((.int n, v) :: es) ++ [.mark ['\x7d']] := by
        rw [parts, if_neg hrec]
      rw [hparts, entryParts] at hready ⊢
      simp only [List.forall_mem_append, List.forall_mem_cons] at hready
      obtain ⟨⟨⟨-, hkey, -, hvready⟩, hesready⟩, -⟩ := hready
      have hclose : ∀ b, Runs lib b ('\x7d' :: s) (after (.ok ['\x7d']) r) :=
        fun b => .plain rfl (hs _) b
      have hes := runs_entries es hlike.2.2 hesready hclose
      have hv := runs_parts v hlike.2.1 hvready (not_quote_some (by rfl : isQuote ' ' = false)) hes
      have hopened := Runs.skipped (c := '\x7b') rfl (looks_intKey n _) (runs_key hkey hv _) before
      rw [repr_dict, reprEntries, joined_cons]
      simpa only [afterParts_cons, afterParts_append, Part.onward, Part.rendered, List.append_assoc,
        List.cons_append, List.nil_append, afterParts_nil] using hopened
  | .list [], hlike, hready, before, s, r, hquote, hs =>
    .container hlike rfl hquote hs
  | .list (x :: xs), hlike, hready, before, s, r, hquote, hs => by
    by_cases hrec : isRecognised (.list (x :: xs))
    · have hparts : parts (.list (x :: xs)) = [.container (.list (x :: xs))] := by
        rw [parts, if_pos hrec]
      rw [hparts]
      exact .container hlike hrec hquote hs
    · obtain ⟨ys, rfl⟩ := tuple_of_not_recognised hrec
      have hparts : parts (.list (.tuple ys :: xs)) =
          itemParts ['['] (.tuple ys :: xs) ++ [.mark [']']] := by rw [parts, if_neg hrec]
      rw [hparts, itemParts] at hready ⊢
      simp only [List.forall_mem_append, List.forall_mem_cons] at hready
      obtain ⟨⟨⟨-, hxready⟩, hxsready⟩, -⟩ := hready
      have hclose : ∀ b, Runs lib b (']' :: s) (after (.ok [']']) r) :=
        fun b => .plain rfl (hs _) b
      have hxs := runs_items xs hlike.2 hxsready hclose
      have hx := runs_parts (.tuple ys) hlike.1 hxready (not_quote_some (by rfl : isQuote '[' = false)) hxs
      have hopened := Runs.skipped (c := '[') rfl (looks_tuple ys _) hx before
      rw [repr_list, reprItems, joined_cons]
      simpa only [afterParts_cons, afterParts_append, Part.onward, Part.rendered, List.append_assoc,
        List.cons_append, List.nil_append, afterParts_nil] using hopened
  | .tuple [], _, _, before, s, r, _, hs => Runs.mark (s := "()".toList) _ (by decide) (hs _)
  | .tuple [x], hlike, hready, before, s, r, _, hs => by
    rw [parts] at hready ⊢
    simp only [List.forall_mem_append, List.forall_mem_cons] at hready
    have hclose : ∀ b, Runs lib b (",)".toList ++ s) (after (.ok ",)".toList) r) :=
      fun b => Runs.mark b (by decide) (hs _)
    have hx := runs_parts x hlike.1 hready.1.2 (not_quote_some (by rfl : isQuote '(' = false)) hclose
    have hopened := Runs.mark (s := ['(']) before (by decide) hx
    rw [repr_single]
    simpa only [afterParts_cons, afterParts_append, Part.onward, Part.rendered, List.append_assoc,
      List.cons_append, List.nil_append, afterParts_nil] using hopened
  | .tuple (x :: y :: xs), hlike, hready, before, s, r, _, hs => by
    rw [parts] at hready ⊢
    simp only [List.forall_mem_append, List.forall_mem_cons] at hready
    obtain ⟨⟨⟨⟨-, hxready⟩, -, hyready⟩, hxsready⟩, -⟩ := hready
    have hclose : ∀ b, Runs lib b (')' :: s) (after (.ok [')']) r) := fun b => .plain rfl (hs _) b
    have hxs := runs_items xs hlike.2.2 hxsready hclose
    have hy := runs_parts y hlike.2.1 hyready (not_quote_some (by rfl : isQuote ' ' = false)) hxs
    have hsep : ∀ b, Runs lib b _ _ := fun b => Runs.mark (s := ", ".toList) b (by decide) hy
    have hx := runs_parts x hlike.1 hxready (not_quote_some (by rfl : isQuote '(' = false)) hsep
    have hopened := Runs.mark (s := ['(']) before (by decide) hx
    rw [repr_several, joined_cons, List.flatMap_cons]
    simpa only [afterParts_cons, afterParts_append, Part.onward, Part.rendered, List.append_assoc,
      List.cons_append, List.nil_append, afterParts_nil] using hopened
  | .none, _, hready, _, _, _, _, hs | .bool _, _, hready, _, _, _, _, hs
  | .int _, _, hready, _, _, _, _, hs | .str _, _, hready, _, _, _, _, hs =>
    runs_atom rfl hready hs

theorem runs_items : ∀ xs : List Data, ItemsLiteral xs →
    (∀ p ∈ itemParts ", ".toList xs, p.Plain lib) →
    ∀ {s : Str} {r : Except PythonError (Option Str)}, (∀ b, Runs lib b s r) → ∀ b,
      Runs lib b ((reprItems lib.printable xs).flatMap (", ".toList ++ ·) ++ s)
        (afterParts lib (itemParts ", ".toList xs) r)
  | [], _, _, s, r, hs, b => hs b
  | x :: xs, hlike, hready, s, r, hs, b => by
    rw [itemParts] at hready ⊢
    simp only [List.forall_mem_append, List.forall_mem_cons] at hready
    have hxs := runs_items xs hlike.2 hready.2 hs
    have hx := runs_parts x hlike.1 hready.1.2 (not_quote_some (by rfl : isQuote ' ' = false)) hxs
    have hsep := Runs.mark (s := ", ".toList) b (by decide) hx
    rw [reprItems, List.flatMap_cons]
    simpa only [afterParts_cons, afterParts_append, Part.onward, List.append_assoc, List.cons_append]
      using hsep

theorem runs_entries : ∀ es : List (Data × Data), EntriesLiteral es →
    (∀ p ∈ entryParts ", ".toList es, p.Plain lib) →
    ∀ {s : Str} {r : Except PythonError (Option Str)}, (∀ b, Runs lib b s r) → ∀ b,
      Runs lib b ((reprEntries lib.printable es).flatMap (", ".toList ++ ·) ++ s)
        (afterParts lib (entryParts ", ".toList es) r)
  | [], _, _, s, r, hs, b => hs b
  | (k, v) :: es, hlike, hready, s, r, hs, b => by
    rw [entryParts] at hready ⊢
    simp only [List.forall_mem_append, List.forall_mem_cons] at hready
    obtain ⟨⟨-, hkey, -, hvready⟩, hesready⟩ := hready
    have hes := runs_entries es hlike.2.2 hesready hs
    have hv := runs_parts v hlike.2.1 hvready (not_quote_some (by rfl : isQuote ' ' = false)) hes
    have hsep := Runs.mark (s := ", ".toList) b (by decide) (runs_key hkey hv _)
    rw [reprEntries, List.flatMap_cons]
    simpa only [afterParts_cons, afterParts_append, Part.onward, Part.rendered, List.append_assoc,
      List.cons_append] using hsep

end

end

/-- A part without what is stored under sensitive keys. -/
def Part.shape : Part → Part
  | .container v => .container (Redaction.shape v)
  | p => p

theorem isRecognised_shape (v : Data) : isRecognised (shape v) = isRecognised v := by
  cases v with
  | dict es =>
    cases es with
    | nil => rfl
    | cons e es =>
      obtain ⟨k, v⟩ := e
      cases k <;> rfl
  | list xs =>
    cases xs with
    | nil => rfl
    | cons x xs => cases x <;> rfl
  | _ => rfl

section
variable {secret : Data}

mutual

theorem shape_withSecret : ∀ v : Data, shape (withSecret secret v) = shape v
  | .dict es => congrArg Data.dict (entries_withSecret es)
  | .list xs => congrArg Data.list (items_withSecret xs)
  | .tuple xs => congrArg Data.tuple (items_withSecret xs)
  | .none | .ellipsis | .bool _ | .int _ | .float _ | .complex _ | .str _ | .bytes _ | .set _ => rfl

theorem items_withSecret : ∀ xs : List Data,
    itemsWithSecret .none (itemsWithSecret secret xs) = itemsWithSecret .none xs
  | [] => rfl
  | x :: xs => congrArg₂ List.cons (shape_withSecret x) (items_withSecret xs)

theorem entries_withSecret : ∀ es : List (Data × Data),
    entriesWithSecret .none (entriesWithSecret secret es) = entriesWithSecret .none es
  | [] => rfl
  | (k, v) :: es => by
    rw [entriesWithSecret, entriesWithSecret, entriesWithSecret, entries_withSecret es]
    by_cases hk : isSecretKey k
    · simp only [hk, if_true]
    · simp only [hk, Bool.false_eq_true, if_false]
      rw [← shape, ← shape, shape_withSecret v]

end

end

mutual

/-- Where no sensitive key is exposed, the parts are the same for all choices, up to the
choices in containers. -/
theorem parts_shape : ∀ v : Data, Unexposed v → parts (shape v) = (parts v).map Part.shape
  | .dict es, h => by
    have hshape : shape (.dict es) = .dict (entriesWithSecret .none es) := rfl
    have hsame := isRecognised_shape (.dict es)
    rw [Unexposed, hshape] at h
    rw [hshape] at hsame ⊢
    rw [parts, hsame] at h ⊢
    rw [parts]
    split_ifs at h ⊢ with hrec
    · rfl
    · rw [List.forall_mem_append] at h
      rw [List.map_append, entryParts_shape es _ h.1]
      rfl
  | .list xs, h => by
    have hshape : shape (.list xs) = .list (itemsWithSecret .none xs) := rfl
    have hsame := isRecognised_shape (.list xs)
    rw [Unexposed, hshape] at h
    rw [hshape] at hsame ⊢
    rw [parts, hsame] at h ⊢
    rw [parts]
    split_ifs at h ⊢ with hrec
    · rfl
    · rw [List.forall_mem_append] at h
      rw [List.map_append, itemParts_shape xs _ h.1]
      rfl
  | .tuple [], _ => rfl
  | .tuple [x], h => by
    have hshape : shape (.tuple [x]) = .tuple [shape x] := rfl
    rw [Unexposed, hshape, parts] at h
    simp only [List.forall_mem_append, List.forall_mem_cons] at h
    rw [hshape, parts, parts, parts_shape x h.1.2]
    simp only [List.map_append, List.map_cons, Part.shape, List.map_nil]
  | .tuple (x :: y :: xs), h => by
    have hshape : shape (.tuple (x :: y :: xs)) =
        .tuple (shape x :: shape y :: itemsWithSecret .none xs) := rfl
    rw [Unexposed, hshape, parts] at h
    simp only [List.forall_mem_append, List.forall_mem_cons] at h
    obtain ⟨⟨⟨⟨-, hx⟩, -, hy⟩, hxs⟩, -⟩ := h
    rw [hshape, parts, parts, parts_shape x hx, parts_shape y hy, itemParts_shape xs _ hxs]
    simp only [List.map_append, List.map_cons, Part.shape, List.map_nil]
  | .none, _ | .ellipsis, _ | .bool _, _ | .int _, _ | .float _, _ | .complex _, _ | .str _, _
  | .bytes _, _ | .set _, _ => rfl

theorem itemParts_shape : ∀ (xs : List Data) (sep : Str),
    (∀ p ∈ itemParts sep (itemsWithSecret .none xs), p.Harmless) →
    itemParts sep (itemsWithSecret .none xs) = (itemParts sep xs).map Part.shape
  | [], _, _ => rfl
  | x :: xs, sep, h => by
    rw [itemsWithSecret, itemParts, ← shape] at h ⊢
    simp only [List.forall_mem_append, List.forall_mem_cons] at h
    rw [itemParts, parts_shape x h.1.2, itemParts_shape xs _ h.2]
    simp only [List.map_append, List.map_cons, Part.shape]

theorem entryParts_shape : ∀ (es : List (Data × Data)) (sep : Str),
    (∀ p ∈ entryParts sep (entriesWithSecret .none es), p.Harmless) →
    entryParts sep (entriesWithSecret .none es) = (entryParts sep es).map Part.shape
  | [], _, _ => rfl
  | (k, v) :: es, sep, h => by
    rw [entriesWithSecret, entryParts] at h ⊢
    simp only [List.forall_mem_append, List.forall_mem_cons] at h
    obtain ⟨⟨-, hk, -, hv⟩, hes⟩ := h
    rw [if_neg hk, ← shape] at hv ⊢
    rw [entryParts, parts_shape v hv, entryParts_shape es _ hes]
    simp only [List.map_append, List.map_cons, Part.shape]

end

section
variable {lib : Library}

/-- What the loop makes of a part does not depend on the choice. -/
theorem rendered_shape (p : Part) : p.shape.rendered lib = p.rendered lib := by
  cases p with
  | container v =>
    rw [Part.shape, Part.rendered, Part.rendered, shape, redactValue_withSecret]
  | _ => rfl

theorem unexposed_choice {d x : Data} (hchoice : IsChoice d x) (hkeys : Unexposed d) : Unexposed x := by
  rw [Unexposed, hchoice]
  exact hkeys

theorem parts_choice {d x : Data} (hchoice : IsChoice d x) (hkeys : Unexposed d) :
    parts (shape d) = (parts x).map Part.shape := by
  rw [← hchoice]
  exact parts_shape x (unexposed_choice hchoice hkeys)

/-- Nothing in a choice is mistaken when nothing sensitive is exposed. -/
theorem plain_of_choice {d x : Data} (hchoice : IsChoice d x) (hkeys : Unexposed d)
    (hplain : Unmistaken lib d) : ∀ p ∈ parts x, p.Plain lib := by
  intro p hp
  have hmem : p.shape ∈ parts (shape d) := parts_choice hchoice hkeys ▸ List.mem_map_of_mem hp
  have hsame := hplain _ hmem
  cases p with
  | container v => trivial
  | _ => exact hsame

theorem runs_nil (before : Option Char) : Runs lib before [] (.ok (some [])) := by
  intro n hn
  cases n with
  | zero => cases hn
  | succ n => rfl

/-- What redaction makes of a text when the loop over its fragments has come to something. -/
theorem redactRuntimeValue_of_loop {value : Str} {r : Except PythonError (Option Str)}
    (h : redactFragments lib (redactAt lib) lib.room (value.length + 1) none value = r) :
    redactRuntimeValue lib value = r.map fun structured =>
      match structured with
      | none => redacted
      | some structured => redactText lib structured := by
  rw [redactRuntimeValue_eq, h]
  cases r with
  | error e => rfl
  | ok o => cases o <;> rfl

/-- Redaction of a `repr` in which nothing is mistaken. -/
theorem redactRuntimeValue_parts {x : Data} (hlike : LiteralLike x) (hplain : ∀ p ∈ parts x, p.Plain lib) :
    redactRuntimeValue lib (PythonValues.repr lib.printable x) =
      (afterParts lib (parts x) (.ok (some []))).map fun structured =>
        match structured with
        | none => redacted
        | some structured => redactText lib structured := by
  have hloop := @runs_parts lib x hlike hplain none [] _ nofun runs_nil
  rw [List.append_nil] at hloop
  exact redactRuntimeValue_of_loop (hloop _ (Nat.lt_succ_self _))

mutual

theorem hasJson_literal : ∀ (v : Data) (key : Str), LiteralLike v → intsFit v → HasJson lib key v
  | .dict es, _, h, hfit => .inr (entriesHaveJson_literal es h hfit)
  | .list xs, _, h, hfit => .inr (itemsHaveJson_literal xs h hfit)
  | .tuple xs, _, h, hfit => .inr (itemsHaveJson_literal xs h hfit)
  | .int _, _, _, hfit => .inr hfit
  | .none, _, _, _ | .bool _, _, _, _ | .str _, _, _, _ => trivial

theorem itemsHaveJson_literal : ∀ xs : List Data, ItemsLiteral xs → itemsFit xs → ItemsHaveJson lib xs
  | [], _, _ => trivial
  | x :: xs, h, hfit => by
    rw [itemsFit, Bool.and_eq_true] at hfit
    exact ⟨hasJson_literal x [] h.1 hfit.1, itemsHaveJson_literal xs h.2 hfit.2⟩

theorem entriesHaveJson_literal : ∀ es : List (Data × Data), EntriesLiteral es → entriesFit es →
    EntriesHaveJson lib es
  | [], _, _ => trivial
  | (_, v) :: es, h, hfit => by
    rw [entriesFit, Bool.and_eq_true, Bool.and_eq_true] at hfit
    exact ⟨.inr (hasJson_literal v _ h.2.1 hfit.1.2), entriesHaveJson_literal es h.2.2 hfit.2⟩

end

end

section
variable {secret : Data}

mutual

theorem literal_withSecret (hsecret : LiteralLike secret) : ∀ v : Data, LiteralLike v → LiteralLike (withSecret secret v)
  | .dict es, h => entriesLiteral_withSecret hsecret es h
  | .list xs, h => itemsLiteral_withSecret hsecret xs h
  | .tuple xs, h => itemsLiteral_withSecret hsecret xs h
  | .none, _ | .bool _, _ | .int _, _ | .str _, _ => trivial

theorem itemsLiteral_withSecret (hsecret : LiteralLike secret) : ∀ xs : List Data,
    ItemsLiteral xs → ItemsLiteral (itemsWithSecret secret xs)
  | [], _ => trivial
  | x :: xs, h => ⟨literal_withSecret hsecret x h.1, itemsLiteral_withSecret hsecret xs h.2⟩

theorem entriesLiteral_withSecret (hsecret : LiteralLike secret) : ∀ es : List (Data × Data),
    EntriesLiteral es → EntriesLiteral (entriesWithSecret secret es)
  | [], _ => trivial
  | (k, v) :: es, h => by
    refine ⟨h.1, ?_, entriesLiteral_withSecret hsecret es h.2.2⟩
    split_ifs
    · exact hsecret
    · exact literal_withSecret hsecret v h.2.1

end

end

section
variable {secret : Data}

mutual

theorem fits_withSecret (hsecret : intsFit secret) : ∀ v : Data, intsFit v → intsFit (withSecret secret v)
  | .dict es, h => entriesFit_withSecret hsecret es h
  | .list xs, h => itemsFit_withSecret hsecret xs h
  | .tuple xs, h => itemsFit_withSecret hsecret xs h
  | .none, h | .ellipsis, h | .bool _, h | .int _, h | .float _, h | .complex _, h | .str _, h
  | .bytes _, h | .set _, h => h

theorem itemsFit_withSecret (hsecret : intsFit secret) : ∀ xs : List Data,
    itemsFit xs → itemsFit (itemsWithSecret secret xs)
  | [], _ => rfl
  | x :: xs, h => by
    rw [itemsFit, Bool.and_eq_true] at h
    rw [itemsWithSecret, itemsFit, fits_withSecret hsecret x h.1, itemsFit_withSecret hsecret xs h.2]
    rfl

theorem entriesFit_withSecret (hsecret : intsFit secret) : ∀ es : List (Data × Data),
    entriesFit es → entriesFit (entriesWithSecret secret es)
  | [], _ => rfl
  | (k, v) :: es, h => by
    rw [entriesFit, Bool.and_eq_true, Bool.and_eq_true] at h
    have hvalue : intsFit (if isSecretKey k then secret else withSecret secret v) := by
      split_ifs
      · exact hsecret
      · exact fits_withSecret hsecret v h.1.2
    rw [entriesWithSecret, entriesFit, h.1.1, hvalue, entriesFit_withSecret hsecret es h.2]
    rfl

end

end

/-- A recognised container of literals that can be written. -/
structure Literal (v : Data) : Prop where
  like : LiteralLike v
  fits : intsFit v
  recognised : isRecognised v

mutual

theorem container_literal {w : Data} : ∀ v : Data, LiteralLike v → intsFit v → .container w ∈ parts v →
    Literal w
  | .dict es, h, hfit, hw => by
    rw [parts] at hw
    split_ifs at hw with hrec
    · obtain rfl : w = .dict es := by simpa using hw
      exact ⟨h, hfit, hrec⟩
    · exact entry_container_literal es _ h hfit (by simpa using hw)
  | .list xs, h, hfit, hw => by
    rw [parts] at hw
    split_ifs at hw with hrec
    · obtain rfl : w = .list xs := by simpa using hw
      exact ⟨h, hfit, hrec⟩
    · exact item_container_literal xs _ h hfit (by simpa using hw)
  | .tuple [], _, _, hw => by simp [parts] at hw
  | .tuple [x], h, hfit, hw => by
    rw [intsFit, itemsFit, Bool.and_eq_true] at hfit
    exact container_literal x h.1 hfit.1 (by simpa [parts] using hw)
  | .tuple (x :: y :: xs), h, hfit, hw => by
    rw [intsFit, itemsFit, itemsFit, Bool.and_eq_true, Bool.and_eq_true] at hfit
    simp only [parts, List.mem_append, List.mem_cons, reduceCtorEq, false_or, List.not_mem_nil,
      or_false] at hw
    rcases hw with (hw | hw) | hw
    · exact container_literal x h.1 hfit.1 hw
    · exact container_literal y h.2.1 hfit.2.1 hw
    · exact item_container_literal xs _ h.2.2 hfit.2.2 hw
  | .none, _, _, hw | .bool _, _, _, hw | .int _, _, _, hw | .str _, _, _, hw => by simp [parts] at hw

theorem item_container_literal {w : Data} : ∀ (xs : List Data) (sep : Str), ItemsLiteral xs →
    itemsFit xs → .container w ∈ itemParts sep xs → Literal w
  | [], _, _, _, hw => by cases hw
  | x :: xs, sep, h, hfit, hw => by
    rw [itemsFit, Bool.and_eq_true] at hfit
    simp only [itemParts, List.mem_append, List.mem_cons, reduceCtorEq, false_or] at hw
    rcases hw with hw | hw
    · exact container_literal x h.1 hfit.1 hw
    · exact item_container_literal xs _ h.2 hfit.2 hw

theorem entry_container_literal {w : Data} : ∀ (es : List (Data × Data)) (sep : Str),
    EntriesLiteral es → entriesFit es → .container w ∈ entryParts sep es → Literal w
  | [], _, _, _, hw => by cases hw
  | (k, v) :: es, sep, h, hfit, hw => by
    rw [entriesFit, Bool.and_eq_true, Bool.and_eq_true] at hfit
    simp only [entryParts, List.mem_append, List.mem_cons, reduceCtorEq, false_or] at hw
    rcases hw with hw | hw
    · exact container_literal v h.2.1 hfit.1.2 hw
    · exact entry_container_literal es _ h.2.2 hfit.2 hw

end

section
variable {lib : Library}

theorem rendered_returns_iff {v : Data} (h : Literal v) :
    Returns ((Part.container v).rendered lib) ↔ (Part.container v).Clean lib := by
  rw [Part.rendered, returns_bind, Part.Clean, ← returns_eq_cleanAt, ← redactValue_returns]
  constructor
  · rintro ⟨v', hv, -⟩
    exact ⟨v', hv⟩
  · rintro ⟨v', hv⟩
    exact ⟨v', hv, (dumps_redactValue v lib.room [] hv).2 (hasJson_literal v [] h.like h.fits)⟩

/-- A part that is read back comes before the rest as it is rendered. -/
theorem onward_of_read {p : Part} (hp : ∀ v, p = .container v → Literal v) (hread : p.Read lib)
    (r : Except PythonError (Option Str)) : p.onward lib r = after (p.rendered lib) r := by
  cases p with
  | container v =>
    have hlit := hp v rfl
    obtain ⟨c, close, body, htext, hclose, -, -⟩ :=
      @repr_recognised lib.printable v hlit.like hlit.recognised
    rw [Part.Read, htext] at hread
    rw [Part.onward, htext,
      parseSerialized_literal hclose (isContainer_recognised hlit.recognised) hread]
    rfl
  | _ => rfl

/-- At a container that is refused the loop returns early. -/
theorem onward_of_refused {p : Part} (hp : ∀ v, p = .container v → Literal v) (hrefused : p.Refused lib)
    (r : Except PythonError (Option Str)) : p.onward lib r = .ok none := by
  cases p with
  | container v =>
    have hlit := hp v rfl
    obtain ⟨c, close, body, htext, hclose, -, -⟩ :=
      @repr_recognised lib.printable v hlit.like hlit.recognised
    rw [Part.Refused, htext] at hrefused
    rw [Part.onward, htext, parseSerialized_refused hclose hrefused.1 hrefused.2]
    rfl
  | _ => exact hrefused.elim

def renderedParts (lib : Library) (ps : List Part) (r : Except PythonError (Option Str)) :
    Except PythonError (Option Str) :=
  ps.foldr (fun p => after (p.rendered lib)) r

theorem renderedParts_shape (ps : List Part) (r : Except PythonError (Option Str)) :
    renderedParts lib (ps.map Part.shape) r = renderedParts lib ps r := by
  induction ps with
  | nil => rfl
  | cons p ps ih =>
    change after (p.shape.rendered lib) (renderedParts lib (ps.map Part.shape) r) =
      after (p.rendered lib) (renderedParts lib ps r)
    rw [rendered_shape, ih]

theorem afterParts_of_read {ps : List Part} (hps : ∀ v, .container v ∈ ps → Literal v)
    (hread : ∀ p ∈ ps, p.Read lib) (r : Except PythonError (Option Str)) :
    afterParts lib ps r = renderedParts lib ps r := by
  induction ps with
  | nil => rfl
  | cons p ps ih =>
    rw [List.forall_mem_cons] at hread
    have hp : ∀ v, p = .container v → Literal v := fun v hv => hps v (hv ▸ List.mem_cons_self ..)
    rw [afterParts_cons, ih (fun v hv => hps v (List.mem_cons_of_mem _ hv)) hread.2,
      onward_of_read hp hread.1]
    rfl

/-- The first container that is refused ends the loop. -/
theorem afterParts_of_refused {ps : List Part} (hps : ∀ v, .container v ∈ ps → Literal v)
    (hsettled : ∀ p ∈ ps, p.Read lib ∨ p.Refused lib) (hrendered : ∀ p ∈ ps, Returns (p.rendered lib))
    (hrefused : ∃ p ∈ ps, p.Refused lib) (r : Except PythonError (Option Str)) :
    afterParts lib ps r = .ok none := by
  induction ps with
  | nil => simp at hrefused
  | cons p ps ih =>
    rw [List.forall_mem_cons] at hsettled hrendered
    have hp : ∀ v, p = .container v → Literal v := fun v hv => hps v (hv ▸ List.mem_cons_self ..)
    rw [afterParts_cons]
    by_cases hfirst : p.Refused lib
    · exact onward_of_refused hp hfirst _
    · obtain ⟨q, hq, hlater⟩ := hrefused
      have hmem : q ∈ ps := (List.mem_cons.1 hq).resolve_left fun h => hfirst (h ▸ hlater)
      obtain ⟨front, hfront⟩ := hrendered.1
      rw [ih (fun v hv => hps v (List.mem_cons_of_mem _ hv)) hsettled.2 hrendered.2 ⟨q, hmem, hlater⟩,
        onward_of_read hp (hsettled.1.resolve_right hfirst), hfront]
      rfl

/-- The loop over parts returns a text when all of them are rendered. -/
theorem renderedParts_returns {ps : List Part} {s : Str} :
    (∃ text, renderedParts lib ps (.ok (some s)) = .ok (some text)) ↔
      ∀ p ∈ ps, Returns (p.rendered lib) := by
  induction ps with
  | nil => simp [renderedParts]
  | cons p ps ih =>
    rw [List.forall_mem_cons, ← ih]
    change (∃ text, after (p.rendered lib) (renderedParts lib ps (.ok (some s))) = .ok (some text)) ↔ _
    constructor
    · rintro ⟨text, htext⟩
      cases hp : p.rendered lib with
      | error e =>
        rw [hp] at htext
        cases htext
      | ok front =>
        rw [hp] at htext
        obtain ⟨o, ho, heq⟩ : ∃ o, renderedParts lib ps (.ok (some s)) = .ok o ∧
            o.map (front ++ ·) = some text := by
          cases hr : renderedParts lib ps (.ok (some s)) with
          | error e =>
            rw [hr] at htext
            cases htext
          | ok o =>
            rw [hr] at htext
            exact ⟨o, rfl, Except.ok.inj htext⟩
        obtain ⟨rest, rfl, -⟩ := Option.map_eq_some_iff.1 heq
        exact ⟨returns_ok _, rest, ho⟩
    · rintro ⟨⟨front, hfront⟩, text, htext⟩
      rw [hfront, htext]
      exact ⟨front ++ text, rfl⟩

/-- The rendered parts never make the loop return early. -/
theorem renderedParts_some (ps : List Part) (s : Str) :
    renderedParts lib ps (.ok (some s)) ≠ .ok none := by
  induction ps with
  | nil => nofun
  | cons p ps ih =>
    change after (p.rendered lib) (renderedParts lib ps (.ok (some s))) ≠ .ok none
    cases p.rendered lib with
    | error e => nofun
    | ok front =>
      cases hr : renderedParts lib ps (.ok (some s)) with
      | error e => nofun
      | ok o =>
        cases o with
        | none => exact absurd hr ih
        | some text => nofun

theorem afterParts_none (ps : List Part) : ∀ text, afterParts lib ps (.ok none) ≠ .ok (some text) := by
  induction ps with
  | nil => nofun
  | cons p ps ih =>
    have hafter : ∀ front : Except PythonError Str, ∀ text,
        after front (afterParts lib ps (.ok none)) ≠ .ok (some text) := by
      intro front text
      cases front with
      | error e => nofun
      | ok front =>
        cases hr : afterParts lib ps (.ok none) with
        | error e => nofun
        | ok o =>
          cases o with
          | none => nofun
          | some text => exact absurd hr (ih text)
    intro text
    rw [afterParts_cons]
    cases p with
    | container v =>
      rw [Part.onward]
      cases parseSerialized lib (PythonValues.repr lib.printable v) with
      | error e => nofun
      | ok parsed =>
        cases parsed with
        | none => nofun
        | some w => exact hafter _ text
    | _ => exact hafter _ text

end

/-- A text in which a container is closed by the wrong bracket. -/
def mismatched : Data := .str "\x7b\"\":]".toList

section
variable {lib : Library}

/-- Under an exposed key the text leaves a container without an end, whatever follows. -/
theorem runs_mismatched (before : Option Char) (s : Str) :
    Runs lib before (PythonValues.repr lib.printable mismatched ++ s) (.ok none) := by
  have htext : PythonValues.repr lib.printable mismatched ++ s =
      '\'' :: '\x7b' :: ("\"\":]'".toList ++ s) := rfl
  have hround : nextRound before ('\'' :: '\x7b' :: ("\"\":]'".toList ++ s)) = .unclosed := rfl
  intro n hn
  rw [htext] at hn ⊢
  cases n with
  | zero => cases hn
  | succ n => rw [redactFragments, hround]

theorem isChoice_withSecret (secret d : Data) : IsChoice d (withSecret secret d) :=
  shape_withSecret d

end

section
variable {lib : Library}

theorem flatMap_sep (sep : Str) {texts : List Str} (h : texts ≠ []) :
    texts.flatMap (sep ++ ·) = sep ++ joined sep texts := by
  cases texts with
  | nil => exact absurd rfl h
  | cons p texts => rw [joined_cons, List.flatMap_cons, List.append_assoc]

theorem parts_several (x y : Data) (xs : List Data) :
    parts (.tuple (x :: y :: xs)) = itemParts ['('] (x :: y :: xs) ++ [.mark [')']] := by
  rw [parts, itemParts, itemParts]
  simp only [List.cons_append, List.append_assoc]

/-- The loop finds no end of a container in the text, wherever it comes from and whatever
follows. -/
def Spoils (lib : Library) (text : Str) : Prop :=
  ∃ ps, ∀ before s, (∀ q, before = some q → isQuote q = false) →
    Runs lib before (text ++ s) (afterParts lib ps (.ok none))

/-- A value with nothing exposed before a text that spoils the loop. -/
theorem Spoils.unexposed {v : Data} {text : Str} (hlike : LiteralLike v) (hkeys : Unexposed v)
    (hplain : Unmistaken lib v) (h : Spoils lib text) :
    Spoils lib (PythonValues.repr lib.printable (withSecret mismatched v) ++ (", ".toList ++ text)) := by
  obtain ⟨ps, hps⟩ := h
  refine ⟨parts (withSecret mismatched v) ++ .mark ", ".toList :: ps, fun before s hquote => ?_⟩
  have hready := plain_of_choice (isChoice_withSecret mismatched v) hkeys hplain
  have hrest : ∀ b, Runs lib b (", ".toList ++ (text ++ s)) _ :=
    fun b => .mark b (by decide) (hps _ s (not_quote_some (by rfl : isQuote ' ' = false)))
  have hruns := runs_parts _ (literal_withSecret (by trivial : LiteralLike mismatched) v hlike) hready
    hquote hrest
  rw [afterParts_append, afterParts_cons]
  simpa only [Part.onward, List.append_assoc] using hruns

theorem Spoils.append {text : Str} (h : Spoils lib text) (more : Str) : Spoils lib (text ++ more) := by
  obtain ⟨ps, hps⟩ := h
  refine ⟨ps, fun before s hquote => ?_⟩
  rw [List.append_assoc]
  exact hps before (more ++ s) hquote

theorem Spoils.mark {text : Str} (sep : Str) (hsep : ∀ c ∈ sep, isOpener c = false)
    (hlast : ∃ c, sep.getLast? = some c ∧ isQuote c = false) (h : Spoils lib text) :
    Spoils lib (sep ++ text) := by
  obtain ⟨ps, hps⟩ := h
  obtain ⟨c, hc, hquote⟩ := hlast
  refine ⟨.mark sep :: ps, fun before s _ => ?_⟩
  rw [List.append_assoc, afterParts_cons]
  refine .mark _ hsep (hps _ s ?_)
  rw [hc]
  exact not_quote_some hquote

theorem Spoils.skipped {text : Str} {c : Char} (hc : isOpener c)
    (hlooks : ∀ s, looksSerializedStart c (text ++ s) = false) (h : Spoils lib text) :
    Spoils lib (c :: text) := by
  obtain ⟨ps, hps⟩ := h
  refine ⟨.mark [c] :: ps, fun before s _ => ?_⟩
  have hquote : isQuote c = false := by
    rcases (by simpa [isOpener] using hc : c = '\x7b' ∨ c = '[') with rfl | rfl <;> rfl
  exact .skipped hc (hlooks s) (hps _ s (not_quote_some hquote)) before

theorem spoils_mismatched : Spoils lib (PythonValues.repr lib.printable mismatched) :=
  ⟨[], fun before s _ => runs_mismatched before s⟩

theorem Spoils.key {k : Data} (hk : Passes (PythonValues.repr lib.printable k)) {text : Str}
    (h : Spoils lib text) :
    Spoils lib (PythonValues.repr lib.printable k ++ ": ".toList ++ text) := by
  obtain ⟨ps, hps⟩ := h
  refine ⟨.key k :: .mark ": ".toList :: ps, fun before s _ => ?_⟩
  have hruns := runs_key hk (hps (some ' ') s (not_quote_some (by rfl : isQuote ' ' = false))) before
  rw [afterParts_cons, afterParts_cons]
  simpa only [Part.onward, List.append_assoc] using hruns

theorem unexposed_recognised {v : Data} (h : isRecognised v) : Unexposed v := by
  have hshape : isRecognised (shape v) := by rw [isRecognised_shape, h]
  have hparts : parts (shape v) = [.container (shape v)] := by
    cases v with
    | dict es => exact if_pos hshape
    | list xs => exact if_pos hshape
    | _ => cases h
  rw [Unexposed, hparts]
  simp [Part.Harmless]

mutual

/-- A sensitive key is exposed: the wrong text under it spoils the loop. -/
theorem spoils_exposed : ∀ v : Data, LiteralLike v → ¬ Unexposed v → Unmistaken lib v →
    Spoils lib (PythonValues.repr lib.printable (withSecret mismatched v))
  | .dict [], _, hkeys, _ => absurd (unexposed_recognised rfl) hkeys
  | .dict ((k, v) :: es), hlike, hkeys, hplain => by
    have hrec : ¬ isRecognised (.dict ((k, v) :: es)) := fun h => hkeys (unexposed_recognised h)
    obtain ⟨n, rfl⟩ := int_of_not_recognised hrec
    have hparts : ∀ secret, parts (withSecret secret (.dict ((.int n, v) :: es))) =
        entryParts ['\x7b'] (entriesWithSecret secret ((.int n, v) :: es)) ++ [.mark ['\x7d']] :=
      fun secret => by rw [withSecret, entriesWithSecret, parts, if_neg (by exact hrec)]
    rw [Unexposed, shape, hparts] at hkeys
    rw [Unmistaken, shape, hparts] at hplain
    rw [List.forall_mem_append] at hkeys hplain
    have hes := spoils_entries _ _ hlike (fun h => hkeys ⟨h, by simp [Part.Harmless]⟩) hplain.1
    rw [withSecret, repr_dict]
    refine .append (.skipped rfl (fun s => ?_) hes) _
    rw [entriesWithSecret, reprEntries, joined_cons, List.append_assoc, List.append_assoc,
      List.append_assoc]
    exact looks_intKey n _
  | .list [], _, hkeys, _ => absurd (unexposed_recognised rfl) hkeys
  | .list (x :: xs), hlike, hkeys, hplain => by
    have hrec : ¬ isRecognised (.list (x :: xs)) := fun h => hkeys (unexposed_recognised h)
    obtain ⟨ys, rfl⟩ := tuple_of_not_recognised hrec
    have hparts : ∀ secret, parts (withSecret secret (.list (.tuple ys :: xs))) =
        itemParts ['['] (itemsWithSecret secret (.tuple ys :: xs)) ++ [.mark [']']] :=
      fun secret => by rw [withSecret, itemsWithSecret, withSecret, parts, if_neg (by exact hrec)]
    rw [Unexposed, shape, hparts] at hkeys
    rw [Unmistaken, shape, hparts] at hplain
    rw [List.forall_mem_append] at hkeys hplain
    have hxs := spoils_items _ _ hlike (fun h => hkeys ⟨h, by simp [Part.Harmless]⟩) hplain.1
    rw [withSecret, repr_list]
    refine .append (.skipped rfl (fun s => ?_) hxs) _
    rw [itemsWithSecret, reprItems, joined_cons, List.append_assoc]
    exact looks_tuple _ _
  | .tuple [], _, hkeys, _ => absurd (by simp [Unexposed, shape, withSecret, itemsWithSecret, parts,
      Part.Harmless]) hkeys
  | .tuple [x], hlike, hkeys, hplain => by
    have hshape : shape (.tuple [x]) = .tuple [shape x] := rfl
    have hsecret : withSecret mismatched (.tuple [x]) = .tuple [withSecret mismatched x] := rfl
    rw [Unexposed, hshape, parts] at hkeys
    rw [Unmistaken, hshape, parts] at hplain
    simp only [List.forall_mem_append, List.forall_mem_cons] at hkeys hplain
    have hx : ¬ Unexposed x := fun h => hkeys ⟨⟨trivial, h⟩, trivial, nofun⟩
    rw [hsecret, repr_single]
    exact .append (.mark ['('] (by decide) ⟨_, rfl, rfl⟩
      (spoils_exposed x hlike.1 hx hplain.1.2)) _
  | .tuple (x :: y :: xs), hlike, hkeys, hplain => by
    have hparts : ∀ secret, parts (withSecret secret (.tuple (x :: y :: xs))) =
        itemParts ['('] (itemsWithSecret secret (x :: y :: xs)) ++ [.mark [')']] :=
      fun secret => by
        rw [withSecret, itemsWithSecret, itemsWithSecret, parts_several]
    rw [Unexposed, shape, hparts] at hkeys
    rw [Unmistaken, shape, hparts] at hplain
    rw [List.forall_mem_append] at hkeys hplain
    have hxs := spoils_items _ _ hlike (fun h => hkeys ⟨h, by simp [Part.Harmless]⟩) hplain.1
    rw [withSecret, itemsWithSecret, itemsWithSecret, repr_several]
    exact .append (.mark ['('] (by decide) ⟨_, rfl, rfl⟩ hxs) _
  | .none, _, hkeys, _ | .bool _, _, hkeys, _ | .int _, _, hkeys, _
  | .str _, _, hkeys, _ => absurd (by simp [Unexposed, shape, withSecret, parts, Part.Harmless]) hkeys

theorem spoils_items : ∀ (xs : List Data) (sep : Str), ItemsLiteral xs →
    (¬ ∀ p ∈ itemParts sep (itemsWithSecret .none xs), p.Harmless) →
    (∀ p ∈ itemParts sep (itemsWithSecret .none xs), p.Plain lib) →
    Spoils lib (joined ", ".toList (reprItems lib.printable (itemsWithSecret mismatched xs)))
  | [], _, _, hkeys, _ => absurd nofun hkeys
  | x :: xs, sep, hlike, hkeys, hplain => by
    rw [itemsWithSecret, itemParts, ← shape] at hkeys hplain
    simp only [List.forall_mem_append, List.forall_mem_cons] at hkeys hplain
    rw [itemsWithSecret, reprItems, joined_cons]
    by_cases hx : Unexposed x
    · have hxs := spoils_items xs ", ".toList hlike.2 (fun h => hkeys ⟨⟨trivial, hx⟩, h⟩) hplain.2
      have hne : reprItems lib.printable (itemsWithSecret mismatched xs) ≠ [] := by
        cases xs with
        | nil => exact absurd ⟨⟨trivial, hx⟩, nofun⟩ hkeys
        | cons y ys => exact List.cons_ne_nil _ _
      rw [flatMap_sep _ hne]
      exact hxs.unexposed hlike.1 hx hplain.1.2
    · exact (spoils_exposed x hlike.1 hx hplain.1.2).append _

theorem spoils_entries : ∀ (es : List (Data × Data)) (sep : Str), EntriesLiteral es →
    (¬ ∀ p ∈ entryParts sep (entriesWithSecret .none es), p.Harmless) →
    (∀ p ∈ entryParts sep (entriesWithSecret .none es), p.Plain lib) →
    Spoils lib (joined ", ".toList (reprEntries lib.printable (entriesWithSecret mismatched es)))
  | [], _, _, hkeys, _ => absurd nofun hkeys
  | (k, v) :: es, sep, hlike, hkeys, hplain => by
    rw [entriesWithSecret, entryParts] at hkeys hplain
    simp only [List.forall_mem_append, List.forall_mem_cons] at hkeys hplain
    obtain ⟨⟨-, hk, -, hv⟩, hes⟩ := hplain
    rw [entriesWithSecret, reprEntries, joined_cons]
    by_cases hsecret : isSecretKey k
    · rw [if_pos hsecret]
      exact (spoils_mismatched.key hk).append _
    · rw [if_neg hsecret, ← shape] at hv hkeys
      rw [if_neg hsecret]
      by_cases hx : Unexposed v
      · have hes' := spoils_entries es ", ".toList hlike.2.2
          (fun h => hkeys ⟨⟨trivial, hsecret, trivial, hx⟩, h⟩) hes
        have hne : reprEntries lib.printable (entriesWithSecret mismatched es) ≠ [] := by
          cases es with
          | nil => exact absurd ⟨⟨trivial, hsecret, trivial, hx⟩, nofun⟩ hkeys
          | cons e es => exact List.cons_ne_nil _ _
        rw [flatMap_sep _ hne, List.append_assoc]
        exact (hes'.unexposed hlike.2.1 hx hv).key hk
      · exact ((spoils_exposed v hlike.2.1 hx hv).key hk).append _

end

end

section
variable {lib : Library}

/-- A character at which a pattern does not match stays in front. -/
theorem sub_cons {r : Pattern} {f : Str → Cursor → Str} {c : Char}
    (h : ∀ s, matchAt r ⟨[], c :: s, []⟩ = none) (s : Str) : ∃ t, sub r f (c :: s) = c :: t :=
  ⟨subFuel r f (s.length + 1) [c] s, by simp only [sub, subFrom, List.length_cons, subFuel, h s]⟩

/-- No substitution changes a brace at the start of a text. -/
theorem redactText_brace (s : Str) : ∃ t, redactText lib ('\x7b' :: s) = '\x7b' :: t := by
  have hword : isWord lib '\x7b' = false := by simp [isWord]
  have hboundary : ∀ k s, run (.boundary (isWord lib)) k ⟨[], '\x7b' :: s, []⟩ = none := by
    intro k s
    simp [run, hword]
  obtain ⟨t₁, h₁⟩ : ∃ t, redactUrls lib ('\x7b' :: s) = '\x7b' :: t := by
    refine sub_cons (fun s => ?_) s
    simp [matchAt, urlPattern, hboundary]
  obtain ⟨t₂, h₂⟩ : ∃ t, redactHeaders ('\x7b' :: t₁) = '\x7b' :: t :=
    sub_cons (fun s => rfl) t₁
  obtain ⟨t₃, h₃⟩ : ∃ t, redactAuthorization lib ('\x7b' :: t₂) = '\x7b' :: t := by
    refine sub_cons (fun s => ?_) t₂
    simp [matchAt, authorizationPattern, hboundary]
  obtain ⟨t₄, h₄⟩ : ∃ t, redactFlags ('\x7b' :: t₃) = '\x7b' :: t :=
    sub_cons (fun s => rfl) t₃
  obtain ⟨t₅, h₅⟩ : ∃ t, redactQueries ('\x7b' :: t₄) = '\x7b' :: t :=
    sub_cons (fun s => rfl) t₄
  obtain ⟨t₆, h₆⟩ : ∃ t, redactAssignments ('\x7b' :: t₅) = '\x7b' :: t :=
    sub_cons (fun s => rfl) t₅
  obtain ⟨t₇, h₇⟩ : ∃ t, redactKeywords lib ('\x7b' :: t₆) = '\x7b' :: t := by
    refine sub_cons (fun s => ?_) t₆
    have hstart : ∀ rs k, run (.seqs (.notAfter isNameChar :: .boundary (isWord lib) :: rs)) k
        ⟨[], '\x7b' :: s, []⟩ = none := fun rs k => hboundary (run (.seqs rs) k) s
    rw [matchAt, keywordPattern, run_seqs_cons, run_group, hstart]
  exact ⟨t₇, by rw [redactText, h₁, h₂, h₃, h₄, h₅, h₆, h₇]⟩

/-- A dictionary that is rendered starts with a brace. -/
theorem rendered_brace {es : List (Data × Data)} {t : Str}
    (h : (Part.container (.dict es)).rendered lib = .ok t) : ∃ more, t = '\x7b' :: more := by
  rw [Part.rendered, redactValue, hide_plain (by decide)] at h
  obtain ⟨v, hv, ht⟩ := bind_eq_ok.1 h
  obtain ⟨entries, rfl⟩ : ∃ entries, v = dictOf entries := by
    cases hroom : lib.room with
    | zero =>
      rw [hroom] at hv
      cases hv
    | succ room =>
      rw [hroom] at hv
      obtain ⟨entries, -, hreturn⟩ := bind_eq_ok.1 hv
      exact ⟨entries, (Except.ok.inj hreturn).symm⟩
  rw [dictOf, dumps] at ht
  obtain ⟨texts, -, hreturn⟩ := bind_eq_ok.1 ht
  exact ⟨_, (Except.ok.inj hreturn).symm⟩

theorem parts_brace (es : List (Data × Data)) :
    parts (shape (.dict es)) = [.container (shape (.dict es))] ∨
      ∃ ps, parts (shape (.dict es)) = .mark ['\x7b'] :: ps := by
  by_cases hrec : isRecognised (shape (.dict es))
  · exact .inl (if_pos hrec)
  · cases es with
    | nil => exact absurd rfl hrec
    | cons e es =>
      obtain ⟨k, v⟩ := e
      exact .inr ⟨_, if_neg hrec⟩

/-- What is rendered of a dictionary starts with a brace. -/
theorem renderedParts_brace {es : List (Data × Data)} {text : Str}
    (h : renderedParts lib (parts (shape (.dict es))) (.ok (some [])) = .ok (some text)) :
    ∃ more, text = '\x7b' :: more := by
  rcases parts_brace es with hparts | ⟨ps, hparts⟩
  · rw [hparts] at h
    change after ((Part.container (.dict (entriesWithSecret .none es))).rendered lib) (.ok (some [])) = _ at h
    cases hr : (Part.container (.dict (entriesWithSecret .none es))).rendered lib with
    | error e =>
      rw [hr] at h
      cases h
    | ok t =>
      obtain ⟨more, rfl⟩ := rendered_brace hr
      rw [hr] at h
      obtain rfl := Option.some.inj (Except.ok.inj h)
      exact ⟨more ++ [], rfl⟩
  · rw [hparts] at h
    change after (.ok ['\x7b']) (renderedParts lib ps (.ok (some []))) = _ at h
    cases hr : renderedParts lib ps (.ok (some [])) with
    | error e =>
      rw [hr] at h
      cases h
    | ok o =>
      cases o with
      | none => exact absurd hr (renderedParts_some ps [])
      | some more =>
        rw [hr] at h
        exact ⟨more, (Option.some.inj (Except.ok.inj h)).symm⟩

theorem redactText_ne_redacted {text : Str} (h : ∃ more, text = '\x7b' :: more) :
    redactText lib text ≠ redacted := by
  obtain ⟨more, rfl⟩ := h
  obtain ⟨t, ht⟩ := @redactText_brace lib more
  rw [ht]
  nofun

/-- A choice with what is needed of it. -/
structure Chosen (lib : Library) (d x : Data) : Prop where
  like : LiteralLike x
  choice : IsChoice d x
  settled : Settled lib x

section
variable {d x : Data}

theorem Chosen.literal (h : Chosen lib d x) : ∀ v, .container v ∈ parts x → Literal v :=
  fun _ hv => container_literal x h.like h.settled.fits hv

theorem Literal.shape {v : Data} (h : Literal v) : Literal (Redaction.shape v) :=
  ⟨literal_withSecret (by trivial : LiteralLike .none) v h.like, fits_withSecret rfl v h.fits,
    by rw [isRecognised_shape, h.recognised]⟩

theorem Chosen.rendered (h : Chosen lib d x) (hcovered : Covered lib d) :
    ∀ p ∈ parts x, Returns (p.rendered lib) := by
  intro p hp
  have hmem : p.shape ∈ parts (shape d) :=
    parts_choice h.choice hcovered.keys ▸ List.mem_map_of_mem hp
  have hclean := hcovered.texts _ hmem
  rw [← rendered_shape p]
  cases p with
  | container v => exact (rendered_returns_iff (h.literal v hp).shape).2 hclean
  | _ => exact returns_ok _

/-- A choice that is refused leaves nothing but `REDACTED`. -/
theorem Chosen.refused (h : Chosen lib d x) (hcovered : Covered lib d) (hrefuses : Refuses lib x) :
    redactRuntimeValue lib (PythonValues.repr lib.printable x) = .ok redacted := by
  rw [redactRuntimeValue_parts h.like (plain_of_choice h.choice hcovered.keys hcovered.plain),
    afterParts_of_refused h.literal h.settled.parts (h.rendered hcovered) hrefuses]
  rfl

theorem reads_of_settled (h : Settled lib x) (hrefuses : ¬ Refuses lib x) : ∀ p ∈ parts x, p.Read lib :=
  fun p hp => (h.parts p hp).resolve_right fun hrefused => hrefuses ⟨p, hp, hrefused⟩

/-- A choice that is read back leaves what is rendered without the sensitive values. -/
theorem Chosen.read (h : Chosen lib d x) (hcovered : Covered lib d) (hrefuses : ¬ Refuses lib x)
    {text : Str} (htext : renderedParts lib (parts (shape d)) (.ok (some [])) = .ok (some text)) :
    redactRuntimeValue lib (PythonValues.repr lib.printable x) = .ok (redactText lib text) := by
  rw [parts_choice h.choice hcovered.keys, renderedParts_shape] at htext
  rw [redactRuntimeValue_parts h.like (plain_of_choice h.choice hcovered.keys hcovered.plain),
    afterParts_of_read h.literal (reads_of_settled h.settled hrefuses), htext]
  rfl

theorem Chosen.rendersText (h : Chosen lib d x) (hcovered : Covered lib d) :
    ∃ text, renderedParts lib (parts (shape d)) (.ok (some [])) = .ok (some text) := by
  rw [parts_choice h.choice hcovered.keys, renderedParts_shape]
  exact renderedParts_returns.2 (h.rendered hcovered)

end

/-- Two choices of a covered dictionary are redacted to one string exactly if both or neither
of them are refused. -/
theorem sameRedaction_of_covered {es : List (Data × Data)} (hcovered : Covered lib (.dict es))
    {x y : Data} (hx : Chosen lib (.dict es) x) (hy : Chosen lib (.dict es) y) :
    SameRedaction lib x y ↔ (Refuses lib x ↔ Refuses lib y) := by
  obtain ⟨text, htext⟩ := hx.rendersText hcovered
  have hne := @redactText_ne_redacted lib text (renderedParts_brace htext)
  by_cases hrx : Refuses lib x <;> by_cases hry : Refuses lib y
  · exact iff_of_true ⟨_, hx.refused hcovered hrx, hy.refused hcovered hry⟩ (iff_of_true hrx hry)
  · refine iff_of_false ?_ fun h => hry (h.1 hrx)
    rintro ⟨out, hout, hout'⟩
    rw [hx.refused hcovered hrx] at hout
    rw [hy.read hcovered hry htext, ← hout] at hout'
    exact hne (Except.ok.inj hout')
  · refine iff_of_false ?_ fun h => hrx (h.2 hry)
    rintro ⟨out, hout, hout'⟩
    rw [hy.refused hcovered hry] at hout'
    rw [hx.read hcovered hrx htext, ← hout'] at hout
    exact hne (Except.ok.inj hout)
  · exact iff_of_true ⟨_, hx.read hcovered hrx htext, hy.read hcovered hry htext⟩
      (iff_of_false hrx hry)

/-- Where redaction returns without anything under the sensitive keys, it renders all parts. -/
theorem renderedParts_of_shape {d : Data} {out : Str} (hlike : LiteralLike d)
    (hplain : Unmistaken lib d) (hshape : Settled lib (shape d)) (hreads : ¬ Refuses lib (shape d))
    (hout : redactRuntimeValue lib (PythonValues.repr lib.printable (shape d)) = .ok out) :
    ∃ text, renderedParts lib (parts (shape d)) (.ok (some [])) = .ok (some text) ∧
      out = redactText lib text := by
  have hlikeShape : LiteralLike (shape d) := literal_withSecret (by trivial : LiteralLike .none) _ hlike
  rw [redactRuntimeValue_parts hlikeShape hplain, afterParts_of_read
    (fun v hv => container_literal _ hlikeShape hshape.fits hv) (reads_of_settled hshape hreads)] at hout
  cases hr : renderedParts lib (parts (shape d)) (.ok (some [])) with
  | error e =>
    rw [hr] at hout
    cases hout
  | ok o =>
    cases o with
    | none => exact absurd hr (renderedParts_some _ _)
    | some text =>
      rw [hr] at hout
      exact ⟨text, rfl, (Except.ok.inj hout).symm⟩

/-- An exposed sensitive key is seen from the outside: some choice of what is under it turns
the whole text into `REDACTED`, and another one does not. -/
theorem unexposed_of_sameRedaction {es : List (Data × Data)} (hlike : LiteralLike (.dict es))
    (hplain : Unmistaken lib (.dict es)) (hshape : Settled lib (shape (.dict es)))
    (hreads : ¬ Refuses lib (shape (.dict es)))
    (h : SameRedaction lib (shape (.dict es)) (withSecret mismatched (.dict es))) :
    Unexposed (.dict es) := by
  by_contra hkeys
  obtain ⟨out, hgood, hbad⟩ := h
  obtain ⟨text, htext, rfl⟩ := renderedParts_of_shape hlike hplain hshape hreads hgood
  obtain ⟨ps, hps⟩ := spoils_exposed _ hlike hkeys hplain
  have hloop := hps none [] nofun
  rw [List.append_nil] at hloop
  rw [redactRuntimeValue_of_loop (hloop _ (Nat.lt_succ_self _))] at hbad
  cases hr : afterParts lib ps (.ok none) with
  | error e =>
    rw [hr] at hbad
    cases hbad
  | ok o =>
    cases o with
    | none =>
      rw [hr] at hbad
      exact redactText_ne_redacted (renderedParts_brace htext) (Except.ok.inj hbad).symm
    | some text => exact afterParts_none ps text hr

theorem containersClean_of_returns {d : Data} (hlike : LiteralLike d) (hplain : Unmistaken lib d)
    (hshape : Settled lib (shape d)) (hreads : ¬ Refuses lib (shape d))
    (h : Returns (redactRuntimeValue lib (PythonValues.repr lib.printable (shape d)))) :
    ContainersClean lib d := by
  have hlikeShape : LiteralLike (shape d) := literal_withSecret (by trivial : LiteralLike .none) _ hlike
  obtain ⟨out, hout⟩ := h
  obtain ⟨text, htext, -⟩ := renderedParts_of_shape hlike hplain hshape hreads hout
  have hrendered := renderedParts_returns.1 ⟨text, htext⟩
  intro p hp
  cases p with
  | container v =>
    exact (rendered_returns_iff (container_literal _ hlikeShape hshape.fits hp)).1 (hrendered _ hp)
  | _ => trivial

end

def literalsLibrary (v w : Data)
    (hv : ∀ leaf ∈ leaves v, leaf.length < (PythonValues.repr (fun _ => false) v).length)
    (hw : ∀ leaf ∈ leaves w, leaf.length < (PythonValues.repr (fun _ => false) w).length) :
    Library where
  loads _ := .error .invalid
  literalEval s :=
    if s = PythonValues.repr (fun _ => false) v then .ok v
    else if s = PythonValues.repr (fun _ => false) w then .ok w else .error .invalid
  room := 1000
  wordChar _ := false
  printable _ := false
  loads_shorter := nothing_shorter
  literalEval_shorter := by
    intro s u hu
    split_ifs at hu with hs hs'
    · obtain rfl := Except.ok.inj hu
      exact hs ▸ hv
    · obtain rfl := Except.ok.inj hu
      exact hs' ▸ hw

theorem literalsLibrary_reads {v w : Data} {hv hw}
    (hne : PythonValues.repr (fun _ => false) w ≠ PythonValues.repr (fun _ => false) v) :
    (Part.container v).Read (literalsLibrary v w hv hw) ∧ (Part.container w).Read (literalsLibrary v w hv hw) := by
  constructor
  · refine .inr ⟨⟨.invalid, rfl, rfl⟩, ?_⟩
    simp [literalsLibrary]
  · refine .inr ⟨⟨.invalid, rfl, rfl⟩, ?_⟩
    simp [literalsLibrary, hne]

/-- `{'password': secret}` -/
def passwordEntry (secret : Data) : Data := .dict [(.str "password".toList, secret)]

/-- `{1: 'a', 'b': {'password': secret}}` -/
def coveredPassword (secret : Data) : Data :=
  .dict [(.int 1, .str "a".toList), (.str "b".toList, passwordEntry secret)]

def coveredLibrary : Library :=
  literalsLibrary (passwordEntry (.str "x".toList)) (passwordEntry (.str "y".toList)) (by decide +kernel)
    (by decide +kernel)

theorem coveredPassword_parts (secret : Data) : parts (coveredPassword secret) =
    [.mark ['\x7b'], .key (.int 1), .mark ": ".toList, .atom (.str "a".toList), .mark ", ".toList,
      .key (.str "b".toList), .mark ": ".toList, .container (passwordEntry secret), .mark ['\x7d']] := rfl

theorem covered_coveredPassword (secret : Data) : Covered coveredLibrary (coveredPassword secret) := by
  have hpasses : ∀ s : Str, (s.all fun c => !isOpener c) = true → Passes s := fun s hs =>
    passes_of_plain (by simpa using hs)
  have hshape : shape (coveredPassword secret) = coveredPassword .none := rfl
  constructor
  case keys =>
    rw [Unexposed, hshape, coveredPassword_parts]
    simp only [List.forall_mem_cons]
    exact ⟨trivial, Bool.false_ne_true, trivial, trivial, trivial, Bool.false_ne_true, trivial, trivial,
      trivial, nofun⟩
  case plain =>
    rw [Unmistaken, hshape, coveredPassword_parts]
    simp only [List.forall_mem_cons, Part.Plain]
    exact ⟨trivial, hpasses _ rfl, trivial, hpasses _ rfl, trivial, hpasses _ rfl, trivial, trivial,
      trivial, nofun⟩
  case texts =>
    have hentries : EntryTextsClean coveredLibrary (CleanAt coveredLibrary) 999
        [(.str "password".toList, .none)] := ⟨rfl, trivial, trivial⟩
    rw [ContainersClean, hshape, coveredPassword_parts]
    simp only [List.forall_mem_cons]
    exact ⟨trivial, trivial, trivial, trivial, trivial, trivial, trivial, .inr ⟨by decide, hentries⟩,
      trivial, nofun⟩

theorem settled_coveredPassword {secret : Data} (hfits : intsFit (coveredPassword secret))
    (hread : (Part.container (passwordEntry secret)).Read coveredLibrary) :
    Settled coveredLibrary (coveredPassword secret) ∧ ¬ Refuses coveredLibrary (coveredPassword secret) := by
  constructor
  · refine ⟨hfits, ?_⟩
    rw [coveredPassword_parts]
    simp only [List.forall_mem_cons]
    exact ⟨.inl trivial, .inl trivial, .inl trivial, .inl trivial, .inl trivial, .inl trivial,
      .inl trivial, .inl hread, .inl trivial, nofun⟩
  · have hnot : ¬ (Part.container (passwordEntry secret)).Refused coveredLibrary := by
      rintro ⟨-, e, hliteral, -⟩
      rcases hread with hloads | ⟨-, hliteral'⟩
      · cases hloads
      · rw [hliteral] at hliteral'
        cases hliteral'
    rintro ⟨p, hp, hrefused⟩
    rw [coveredPassword_parts] at hp
    simp only [List.mem_cons, List.not_mem_nil, or_false] at hp
    rcases hp with rfl | rfl | rfl | rfl | rfl | rfl | rfl | rfl | rfl
    case inr.inr.inr.inr.inr.inr.inr.inl => exact hnot hrefused
    all_goals exact hrefused

/-- `{1: 'a', 'password': secret}` -/
def exposedPassword (secret : Str) : Data :=
  .dict [(.int 1, .str "a".toList), (.str "password".toList, .str secret)]

end BitcoinRpcOperator.Redaction
