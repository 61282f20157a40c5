import BitcoinRpcOperator.JsonText

/-!
# Reading back what was written

A value whose lexemes are well formed is read back from its compact text, with its strings
escaped the way the writer did, as long as the reader lets it nest that deep. Conversely the
reader builds no other values.
-/

namespace BitcoinRpcOperator.JsonText
open Text

inductive StringLexeme : Bytes → Prop
  | nil : StringLexeme []
  | plain {b : UInt8} {raw : Bytes} : b ≠ byte '"' → b ≠ byte '\\' → ¬ b < 0x20 →
      StringLexeme raw → StringLexeme (b :: raw)
  | escape {e : UInt8} {raw : Bytes} : isEscape e → StringLexeme raw →
      StringLexeme (byte '\\' :: e :: raw)
  | unicode {h₁ h₂ h₃ h₄ : UInt8} {raw : Bytes} : isHexDigit h₁ → isHexDigit h₂ →
      isHexDigit h₃ → isHexDigit h₄ → StringLexeme raw →
      StringLexeme (byte '\\' :: byte 'u' :: h₁ :: h₂ :: h₃ :: h₄ :: raw)

theorem StringLexeme.append {a b : Bytes} (ha : StringLexeme a) (hb : StringLexeme b) :
    StringLexeme (a ++ b) := by
  induction ha with
  | nil => exact hb
  | plain h₁ h₂ h₃ _ ih => exact .plain h₁ h₂ h₃ ih
  | escape h _ ih => exact .escape h ih
  | unicode h₁ h₂ h₃ h₄ _ ih => exact .unicode h₁ h₂ h₃ h₄ ih

/-- What follows a byte that starts no escape is a lexeme again. -/
theorem StringLexeme.tail {b : UInt8} {raw : Bytes} (h : StringLexeme (b :: raw))
    (hb : b ≠ byte '\\') : StringLexeme raw := by
  cases h with
  | plain _ _ _ h => exact h
  | escape _ _ => exact absurd rfl hb
  | unicode _ _ _ _ _ => exact absurd rfl hb

/-- The phase of a number after its first byte. -/
def NumberPhase.start (b : UInt8) : Option NumberPhase :=
  if b == byte '-' then some .minus else if b == byte '0' then some .zero
  else if isDigit b then some .integer else none

/-- A number read up to a phase. -/
def NumberUpTo (phase : NumberPhase) (raw : Bytes) : Prop :=
  ∃ b rest first, raw = b :: rest ∧ NumberPhase.start b = some first ∧
    rest.foldlM NumberPhase.next first = some phase

def NumberLexeme (raw : Bytes) : Prop := ∃ phase, NumberUpTo phase raw ∧ phase.complete

def Token.WellFormed : Token → Prop
  | .number raw => NumberLexeme raw
  | .string raw => StringLexeme raw
  | _ => True

namespace Json

mutual

def WellFormed : Json → Prop
  | .number raw => NumberLexeme raw
  | .string raw => StringLexeme raw
  | .array es => ElementsWellFormed es
  | .object ms => MembersWellFormed ms
  | .null | .bool _ => True

def ElementsWellFormed : List Json → Prop
  | [] => True
  | v :: vs => v.WellFormed ∧ ElementsWellFormed vs

def MembersWellFormed : List (Bytes × Json) → Prop
  | [] => True
  | (key, v) :: ms => StringLexeme key ∧ v.WellFormed ∧ MembersWellFormed ms

end

mutual

def depth : Json → ℕ
  | .array es => elementsDepth es + 1
  | .object ms => membersDepth ms + 1
  | .null | .bool _ | .number _ | .string _ => 0

def elementsDepth : List Json → ℕ
  | [] => 0
  | v :: vs => max v.depth (elementsDepth vs)

def membersDepth : List (Bytes × Json) → ℕ
  | [] => 0
  | (_, v) :: ms => max v.depth (membersDepth ms)

end

mutual

/-- The value with a function applied to its string lexemes. -/
def mapStrings (f : Bytes → Bytes) : Json → Json
  | .string raw => .string (f raw)
  | .array es => .array (mapElements f es)
  | .object ms => .object (mapMembers f ms)
  | .null => .null
  | .bool b => .bool b
  | .number raw => .number raw

def mapElements (f : Bytes → Bytes) : List Json → List Json
  | [] => []
  | v :: vs => v.mapStrings f :: mapElements f vs

def mapMembers (f : Bytes → Bytes) : List (Bytes × Json) → List (Bytes × Json)
  | [] => []
  | (key, v) :: ms => (f key, v.mapStrings f) :: mapMembers f ms

end

theorem elementsWellFormed_iff {es : List Json} :
    ElementsWellFormed es ↔ ∀ v ∈ es, v.WellFormed := by
  induction es with
  | nil => simp [ElementsWellFormed]
  | cons v es ih => simp [ElementsWellFormed, ih]

theorem membersWellFormed_iff {ms : List (Bytes × Json)} :
    MembersWellFormed ms ↔ ∀ m ∈ ms, StringLexeme m.1 ∧ m.2.WellFormed := by
  induction ms with
  | nil => simp [MembersWellFormed]
  | cons m ms ih => simp [MembersWellFormed, ih, and_assoc]

theorem elementsDepth_le {es : List Json} {n : ℕ} :
    elementsDepth es ≤ n ↔ ∀ v ∈ es, v.depth ≤ n := by
  induction es with
  | nil => simp [elementsDepth]
  | cons v es ih => simp [elementsDepth, ih]

theorem membersDepth_le {ms : List (Bytes × Json)} {n : ℕ} :
    membersDepth ms ≤ n ↔ ∀ m ∈ ms, m.2.depth ≤ n := by
  induction ms with
  | nil => simp [membersDepth]
  | cons m ms ih => simp [membersDepth, ih]

mutual

def tokens : Json → List Token
  | .null => [.null]
  | .bool b => [.bool b]
  | .number raw => [.number raw]
  | .string raw => [.string raw]
  | .array [] => [.beginArray, .endArray]
  | .array (v :: vs) => .beginArray :: (v.tokens ++ laterElements vs)
  | .object [] => [.beginObject, .endObject]
  | .object ((key, v) :: ms) =>
    .beginObject :: .string key :: .colon :: (v.tokens ++ laterMembers ms)

/-- The tokens behind an element, to the end of its list. -/
def laterElements : List Json → List Token
  | [] => [.endArray]
  | v :: vs => .comma :: (v.tokens ++ laterElements vs)

/-- The tokens behind a member, to the end of its object. -/
def laterMembers : List (Bytes × Json) → List Token
  | [] => [.endObject]
  | (key, v) :: ms => .comma :: .string key :: .colon :: (v.tokens ++ laterMembers ms)

end

end Json

theorem tokens_cons (mode : Mode) (b : UInt8) (bs : Bytes) :
    tokens mode (b :: bs) =
      (step mode b).bind fun r => (tokens r.2 bs).map fun later => r.1 ++ later := by
  rw [tokens]
  cases step mode b with
  | none => rfl
  | some r =>
    obtain ⟨now, mode'⟩ := r
    simp only [Option.bind_eq_bind, Option.bind_some]
    cases tokens mode' bs <;> rfl

theorem tokens_of_step {mode mode' : Mode} {b : UInt8} {now : List Token}
    (h : step mode b = some (now, mode')) (bs : Bytes) :
    tokens mode (b :: bs) = (tokens mode' bs).map fun later => now ++ later := by
  rw [tokens_cons, h]
  rfl

theorem tokens_silent {mode mode' : Mode} {b : UInt8} (h : step mode b = some ([], mode'))
    (bs : Bytes) : tokens mode (b :: bs) = tokens mode' bs := by
  rw [tokens_of_step h]
  simp

theorem tokens_punctuation {b : UInt8} {token : Token} (h : punctuation b = some token)
    (bs : Bytes) : tokens .between (b :: bs) = (tokens .between bs).map (token :: ·) := by
  have hstep : step .between b = some ([token], .between) := by simp [step, beginToken, h]
  exact tokens_of_step hstep bs

theorem tokens_word {w : Bytes} (hw : w ≠ []) (token : Token) (bs : Bytes) :
    tokens (.word w token) (w ++ bs) = (tokens .between bs).map (token :: ·) := by
  induction w with
  | nil => exact absurd rfl hw
  | cons c w ih =>
    cases w with
    | nil =>
      have hstep : step (.word [c] token) c = some ([token], .between) := by simp [step]
      exact tokens_of_step hstep bs
    | cons d w =>
      have hstep : step (.word (c :: d :: w) token) c = some ([], .word (d :: w) token) := by
        simp [step]
      rw [List.cons_append, tokens_silent hstep, ih (by simp)]

theorem tokens_string {raw : Bytes} (h : StringLexeme raw) (acc bs : Bytes) :
    tokens (.string acc) (raw ++ byte '"' :: bs) =
      (tokens .between bs).map (.string (acc.reverse ++ raw) :: ·) := by
  have hquote : byte '\\' ≠ byte '"' := by decide
  have hnoescape : ∀ e, isEscape e = true → e ≠ byte 'u' := by
    rintro e he rfl
    exact absurd he (by decide)
  have hbegin : ∀ acc : Bytes, step (.string acc) (byte '\\') = some ([], .escape (byte '\\' :: acc)) := by
    intro acc
    rfl
  have hhex : ∀ (h : UInt8) (n : ℕ) (acc : Bytes), isHexDigit h = true → 1 < n →
      step (.hex n acc) h = some ([], .hex (n - 1) (h :: acc)) := by
    intro h n acc hh hn
    simp [step, hh, not_le.2 hn]
  have hlast : ∀ (h : UInt8) (acc : Bytes), isHexDigit h = true →
      step (.hex 1 acc) h = some ([], .string (h :: acc)) := by
    intro h acc hh
    simp [step, hh]
  induction h generalizing acc with
  | nil =>
    have hstep : step (.string acc) (byte '"') = some ([.string acc.reverse], .between) := rfl
    rw [List.nil_append, tokens_of_step hstep, List.append_nil]
    rfl
  | plain hdouble hbackslash hlow _ ih =>
    rename_i b raw _
    have hstep : step (.string acc) b = some ([], .string (b :: acc)) := by
      simp [step, hdouble, hbackslash, hlow]
    rw [List.cons_append, tokens_silent hstep, ih]
    simp
  | escape he _ ih =>
    rename_i e raw _
    have hstep : step (.escape (byte '\\' :: acc)) e = some ([], .string (e :: byte '\\' :: acc)) := by
      simp [step, hnoescape e he, he]
    rw [List.cons_append, tokens_silent (hbegin acc), List.cons_append, tokens_silent hstep, ih]
    simp
  | unicode h₁ h₂ h₃ h₄ _ ih =>
    rename_i d₁ d₂ d₃ d₄ raw _
    have hstep : step (.escape (byte '\\' :: acc)) (byte 'u') =
      some ([], .hex 4 (byte 'u' :: byte '\\' :: acc)) := rfl
    simp only [List.cons_append]
    rw [tokens_silent (hbegin acc), tokens_silent hstep, tokens_silent (hhex d₁ 4 _ h₁ (by omega)),
      tokens_silent (hhex d₂ 3 _ h₂ (by omega)), tokens_silent (hhex d₃ 2 _ h₃ (by omega)),
      tokens_silent (hlast d₄ _ h₄), ih]
    simp

/-- The end of a text, or a byte that ends a number. -/
def Delimited (bs : Bytes) : Prop :=
  bs = [] ∨ ∃ b rest token, bs = b :: rest ∧ punctuation b = some token

theorem punctuation_cases {b : UInt8} {token : Token} (h : punctuation b = some token) :
    b ∈ [byte '{', byte '}', byte '[', byte ']', byte ':', byte ','] := by
  unfold punctuation at h
  split_ifs at h <;> simp_all

theorem next_punctuation {b : UInt8} {token : Token} (h : punctuation b = some token)
    (phase : NumberPhase) : phase.next b = none := by
  have hall : ∀ b ∈ [byte '{', byte '}', byte '[', byte ']', byte ':', byte ','],
      phase.next b = none := by
    cases phase <;> decide
  exact hall b (punctuation_cases h)

/-- A byte here would not continue a number. -/
def Ends (bs : Bytes) : Prop := ∀ b rest, bs = b :: rest → ∀ phase : NumberPhase, phase.next b = none

theorem Delimited.ends {bs : Bytes} (h : Delimited bs) : Ends bs := by
  rintro b rest rfl
  rcases h with h | ⟨b', rest', token, heq, hb⟩
  · cases h
  · cases heq
    exact next_punctuation hb

/-- A number is one token, up to what ends it. -/
theorem tokens_number {raw acc bs : Bytes} {phase last : NumberPhase}
    (h : raw.foldlM NumberPhase.next phase = some last) (hlast : last.complete)
    (hbs : Ends bs) : tokens (.number phase acc) (raw ++ bs) =
      (tokens .between bs).map (.number (acc.reverse ++ raw) :: ·) := by
  induction raw generalizing phase acc with
  | nil =>
    obtain rfl : phase = last := Option.some.inj h
    rw [List.nil_append, List.append_nil]
    cases bs with
    | nil => simp [tokens, finish, hlast]
    | cons b rest =>
      have hstep : step (.number phase acc) b =
          (beginToken b).map fun r => (.number acc.reverse :: r.1, r.2) := by
        simp [step, hbs b rest rfl, hlast]
      rw [tokens_cons, tokens_cons, hstep, step]
      cases beginToken b with
      | none => rfl
      | some r =>
        change (tokens r.2 rest).map _ = ((tokens r.2 rest).map _).map _
        rw [Option.map_map]
        rfl
  | cons b raw ih =>
    rw [List.foldlM_cons] at h
    obtain ⟨next, hnext, h⟩ := Option.bind_eq_some_iff.1 h
    have hstep : step (.number phase acc) b = some ([], .number next (b :: acc)) := by
      simp [step, hnext]
    rw [List.cons_append, tokens_silent hstep, ih h]
    simp

theorem start_beginToken {b : UInt8} {first : NumberPhase} (h : NumberPhase.start b = some first) :
    step .between b = some ([], .number first [b]) := by
  have hpunctuation : punctuation b = none := by
    cases hp : punctuation b with
    | none => rfl
    | some token =>
      have hall : ∀ b ∈ [byte '{', byte '}', byte '[', byte ']', byte ':', byte ','],
          NumberPhase.start b = none := by decide
      rw [hall b (punctuation_cases hp)] at h
      cases h
  have hblank : isBlank b = false := by
    by_contra hb
    rw [Bool.not_eq_false, isBlank] at hb
    have hmem : b ∈ [byte ' ', byte '\t', byte '\n', byte '\r'] := by
      simpa [or_assoc] using hb
    have hall : ∀ b ∈ [byte ' ', byte '\t', byte '\n', byte '\r'],
        NumberPhase.start b = none := by decide
    rw [hall b hmem] at h
    cases h
  have hquote : (b == byte '"') = false := by
    rw [beq_eq_false_iff_ne]
    rintro rfl
    have hnone : NumberPhase.start (byte '"') = none := by decide
    rw [hnone] at h
    cases h
  unfold NumberPhase.start at h
  simp only [step, beginToken, hpunctuation, hblank, hquote]
  split_ifs at h ⊢ <;> simp_all

theorem intercalate_cons (c : UInt8) (x : Bytes) (xs : List Bytes) :
    [c].intercalate (x :: xs) = x ++ xs.flatMap (c :: ·) := by
  induction xs generalizing x with
  | nil => simp [List.intercalate]
  | cons y xs ih =>
    have hstep : [c].intercalate (x :: y :: xs) = x ++ c :: [c].intercalate (y :: xs) := by
      simp [List.intercalate, List.intersperse]
    rw [hstep, ih]
    simp

theorem delimited_cons {b : UInt8} {token : Token} (h : punctuation b = some token) (bs : Bytes) :
    Delimited (b :: bs) := .inr ⟨b, bs, token, rfl, h⟩

section
variable {escape : Bytes → Bytes}

theorem tokens_quoted (hescape : ∀ raw, StringLexeme raw → StringLexeme (escape raw)) {raw : Bytes}
    (h : StringLexeme raw) (bs : Bytes) :
    tokens .between (quoted escape raw ++ bs) =
      (tokens .between bs).map (.string (escape raw) :: ·) := by
  have hstep : step .between (byte '"') = some ([], .string []) := rfl
  have htext : quoted escape raw ++ bs = byte '"' :: (escape raw ++ byte '"' :: bs) := by
    simp [quoted]
  rw [htext, tokens_silent hstep, tokens_string (hescape raw h)]
  rfl

mutual

/-- The text of a value is read as the tokens of the value, strings escaped. -/
theorem tokens_encode (hescape : ∀ raw, StringLexeme raw → StringLexeme (escape raw)) :
    ∀ v : Json, v.WellFormed → ∀ bs, Delimited bs →
      tokens .between (encode escape v ++ bs) =
        (tokens .between bs).map ((v.mapStrings escape).tokens ++ ·)
  | .null, _, bs, _ => by
    have htext : utf8 "null".toList = byte 'n' :: utf8 "ull".toList := by decide +kernel
    have hstep : step .between (byte 'n') = some ([], .word (utf8 "ull".toList) .null) := rfl
    rw [encode, htext, List.cons_append, tokens_silent hstep, tokens_word (by decide +kernel)]
    rfl
  | .bool true, _, bs, _ => by
    have htext : utf8 "true".toList = byte 't' :: utf8 "rue".toList := by decide +kernel
    have hstep : step .between (byte 't') = some ([], .word (utf8 "rue".toList) (.bool true)) := rfl
    rw [encode, htext, List.cons_append, tokens_silent hstep, tokens_word (by decide +kernel)]
    rfl
  | .bool false, _, bs, _ => by
    have htext : utf8 "false".toList = byte 'f' :: utf8 "alse".toList := by decide +kernel
    have hstep : step .between (byte 'f') = some ([], .word (utf8 "alse".toList) (.bool false)) :=
      rfl
    rw [encode, htext, List.cons_append, tokens_silent hstep, tokens_word (by decide +kernel)]
    rfl
  | .number raw, h, bs, hbs => by
    obtain ⟨last, ⟨b, rest, first, rfl, hstart, hrest⟩, hlast⟩ := h
    rw [encode, List.cons_append, tokens_silent (start_beginToken hstart),
      tokens_number hrest hlast hbs.ends]
    rfl
  | .string raw, h, bs, _ => by
    rw [encode, tokens_quoted hescape h]
    rfl
  | .array [], _, bs, _ => by
    have htext : encode escape (.array []) ++ bs = byte '[' :: byte ']' :: bs := by
      simp [encode, encodeElements, List.intercalate]
    have hopen : punctuation (byte '[') = some .beginArray := rfl
    have hclose : punctuation (byte ']') = some .endArray := rfl
    rw [htext, tokens_punctuation hopen, tokens_punctuation hclose, Option.map_map]
    rfl
  | .array (v :: vs), h, bs, _ => by
    obtain ⟨hv, hvs⟩ := h
    have htext : encode escape (.array (v :: vs)) ++ bs = byte '[' :: (encode escape v ++
        ((encodeElements escape vs).flatMap (byte ',' :: ·) ++ byte ']' :: bs)) := by
      simp [encode, encodeElements, intercalate_cons]
    have hopen : punctuation (byte '[') = some .beginArray := rfl
    have hdelimited : Delimited
        ((encodeElements escape vs).flatMap (byte ',' :: ·) ++ byte ']' :: bs) := by
      cases vs with
      | nil => exact delimited_cons (by rfl : punctuation (byte ']') = some .endArray) bs
      | cons w vs => exact delimited_cons (by rfl : punctuation (byte ',') = some .comma) _
    rw [htext, tokens_punctuation hopen, tokens_encode hescape v hv _ hdelimited,
      tokens_laterElements hescape vs hvs, Option.map_map, Option.map_map]
    simp [Json.mapStrings, Json.mapElements, Json.tokens, Function.comp_def]
  | .object [], _, bs, _ => by
    have htext : encode escape (.object []) ++ bs = byte '{' :: byte '}' :: bs := by
      simp [encode, encodeMembers, List.intercalate]
    have hopen : punctuation (byte '{') = some .beginObject := rfl
    have hclose : punctuation (byte '}') = some .endObject := rfl
    rw [htext, tokens_punctuation hopen, tokens_punctuation hclose, Option.map_map]
    rfl
  | .object ((key, v) :: ms), h, bs, _ => by
    obtain ⟨hkey, hv, hms⟩ := h
    have htext : encode escape (.object ((key, v) :: ms)) ++ bs =
        byte '{' :: (quoted escape key ++ byte ':' :: (encode escape v ++
          ((encodeMembers escape ms).flatMap (byte ',' :: ·) ++ byte '}' :: bs))) := by
      simp [encode, encodeMembers, intercalate_cons]
    have hopen : punctuation (byte '{') = some .beginObject := rfl
    have hcolon : punctuation (byte ':') = some .colon := rfl
    have hdelimited : Delimited
        ((encodeMembers escape ms).flatMap (byte ',' :: ·) ++ byte '}' :: bs) := by
      cases ms with
      | nil => exact delimited_cons (by rfl : punctuation (byte '}') = some .endObject) bs
      | cons m ms => exact delimited_cons (by rfl : punctuation (byte ',') = some .comma) _
    rw [htext, tokens_punctuation hopen, tokens_quoted hescape hkey, tokens_punctuation hcolon,
      tokens_encode hescape v hv _ hdelimited, tokens_laterMembers hescape ms hms]
    simp [Json.mapStrings, Json.mapMembers, Json.tokens, Function.comp_def]

theorem tokens_laterElements (hescape : ∀ raw, StringLexeme raw → StringLexeme (escape raw)) :
    ∀ vs : List Json, Json.ElementsWellFormed vs → ∀ bs,
      tokens .between ((encodeElements escape vs).flatMap (byte ',' :: ·) ++ byte ']' :: bs) =
        (tokens .between bs).map (Json.laterElements (Json.mapElements escape vs) ++ ·)
  | [], _, bs => by
    have hclose : punctuation (byte ']') = some .endArray := rfl
    exact tokens_punctuation hclose bs
  | v :: vs, h, bs => by
    obtain ⟨hv, hvs⟩ := h
    have htext : (encodeElements escape (v :: vs)).flatMap (byte ',' :: ·) ++ byte ']' :: bs =
        byte ',' :: (encode escape v ++
          ((encodeElements escape vs).flatMap (byte ',' :: ·) ++ byte ']' :: bs)) := by
      simp [encodeElements]
    have hcomma : punctuation (byte ',') = some .comma := rfl
    have hdelimited : Delimited
        ((encodeElements escape vs).flatMap (byte ',' :: ·) ++ byte ']' :: bs) := by
      cases vs with
      | nil => exact delimited_cons (by rfl : punctuation (byte ']') = some .endArray) bs
      | cons w vs => exact delimited_cons (by rfl : punctuation (byte ',') = some .comma) _
    rw [htext, tokens_punctuation hcomma, tokens_encode hescape v hv _ hdelimited,
      tokens_laterElements hescape vs hvs]
    simp [Json.mapElements, Json.laterElements, Function.comp_def]

theorem tokens_laterMembers (hescape : ∀ raw, StringLexeme raw → StringLexeme (escape raw)) :
    ∀ ms : List (Bytes × Json), Json.MembersWellFormed ms → ∀ bs,
      tokens .between ((encodeMembers escape ms).flatMap (byte ',' :: ·) ++ byte '}' :: bs) =
        (tokens .between bs).map (Json.laterMembers (Json.mapMembers escape ms) ++ ·)
  | [], _, bs => by
    have hclose : punctuation (byte '}') = some .endObject := rfl
    exact tokens_punctuation hclose bs
  | (key, v) :: ms, h, bs => by
    obtain ⟨hkey, hv, hms⟩ := h
    have htext : (encodeMembers escape ((key, v) :: ms)).flatMap (byte ',' :: ·) ++ byte '}' :: bs =
        byte ',' :: (quoted escape key ++ byte ':' :: (encode escape v ++
          ((encodeMembers escape ms).flatMap (byte ',' :: ·) ++ byte '}' :: bs))) := by
      simp [encodeMembers]
    have hcomma : punctuation (byte ',') = some .comma := rfl
    have hcolon : punctuation (byte ':') = some .colon := rfl
    have hdelimited : Delimited
        ((encodeMembers escape ms).flatMap (byte ',' :: ·) ++ byte '}' :: bs) := by
      cases ms with
      | nil => exact delimited_cons (by rfl : punctuation (byte '}') = some .endObject) bs
      | cons m ms => exact delimited_cons (by rfl : punctuation (byte ',') = some .comma) _
    rw [htext, tokens_punctuation hcomma, tokens_quoted hescape hkey, tokens_punctuation hcolon,
      tokens_encode hescape v hv _ hdelimited, tokens_laterMembers hescape ms hms]
    simp [Json.mapMembers, Json.laterMembers, Function.comp_def]

end

end

section
variable {limit : ℕ}

theorem foldlM_cons (state : List Frame × Expecting) (token : Token) (ts : List Token) :
    (token :: ts).foldlM (parseToken limit) state =
      (parseToken limit state token).bind fun state => ts.foldlM (parseToken limit) state := rfl

mutual

/-- The tokens of a value are read as the value, where a value may come. -/
theorem parse_tokens : ∀ (v : Json) (stack : List Frame) (ts : List Token) (expecting : Expecting),
    expecting = .value ∨ expecting = .element → stack.length + v.depth ≤ limit →
      (v.tokens ++ ts).foldlM (parseToken limit) (stack, expecting) =
        ts.foldlM (parseToken limit) (place v stack)
  | .null, stack, ts, expecting, hexp, _ => by rcases hexp with rfl | rfl <;> rfl
  | .bool b, stack, ts, expecting, hexp, _ => by rcases hexp with rfl | rfl <;> rfl
  | .number raw, stack, ts, expecting, hexp, _ => by rcases hexp with rfl | rfl <;> rfl
  | .string raw, stack, ts, expecting, hexp, _ => by rcases hexp with rfl | rfl <;> rfl
  | .array [], stack, ts, expecting, hexp, hdepth => by
    have hroom : stack.length < limit := by
      simp only [Json.depth, Json.elementsDepth] at hdepth
      omega
    have hopen : parseToken limit (stack, expecting) .beginArray =
        some (.array [] :: stack, .element) := by
      rcases hexp with rfl | rfl <;> simp [parseToken, beginValue, openContainer, hroom]
    rw [Json.tokens, List.cons_append, foldlM_cons, hopen]
    rfl
  | .array (v :: vs), stack, ts, expecting, hexp, hdepth => by
    have hbounds : stack.length < limit ∧ stack.length + 1 + v.depth ≤ limit ∧
        stack.length + 1 + Json.elementsDepth vs ≤ limit := by
      simp only [Json.depth, Json.elementsDepth] at hdepth
      omega
    obtain ⟨hroom, hv, hvs⟩ := hbounds
    have hopen : parseToken limit (stack, expecting) .beginArray =
        some (.array [] :: stack, .element) := by
      rcases hexp with rfl | rfl <;> simp [parseToken, beginValue, openContainer, hroom]
    rw [Json.tokens, List.cons_append, foldlM_cons, hopen, List.append_assoc]
    exact (parse_tokens v (.array [] :: stack) _ .element (.inr rfl) hv).trans
      (parse_laterElements vs [v] stack ts hvs)
  | .object [], stack, ts, expecting, hexp, hdepth => by
    have hroom : stack.length < limit := by
      simp only [Json.depth, Json.membersDepth] at hdepth
      omega
    have hopen : parseToken limit (stack, expecting) .beginObject =
        some (.object [] [] :: stack, .member) := by
      rcases hexp with rfl | rfl <;> simp [parseToken, beginValue, openContainer, hroom]
    rw [Json.tokens, List.cons_append, foldlM_cons, hopen]
    rfl
  | .object ((key, v) :: ms), stack, ts, expecting, hexp, hdepth => by
    have hbounds : stack.length < limit ∧ stack.length + 1 + v.depth ≤ limit ∧
        stack.length + 1 + Json.membersDepth ms ≤ limit := by
      simp only [Json.depth, Json.membersDepth] at hdepth
      omega
    obtain ⟨hroom, hv, hms⟩ := hbounds
    have hopen : parseToken limit (stack, expecting) .beginObject =
        some (.object [] [] :: stack, .member) := by
      rcases hexp with rfl | rfl <;> simp [parseToken, beginValue, openContainer, hroom]
    rw [Json.tokens, List.cons_append, foldlM_cons, hopen, List.cons_append, List.cons_append,
      List.append_assoc]
    exact (parse_tokens v (.object [] key :: stack) _ .value (.inl rfl) hv).trans
      (parse_laterMembers ms [(key, v)] key stack ts hms)

theorem parse_laterElements : ∀ (vs acc : List Json) (stack : List Frame) (ts : List Token),
    stack.length + 1 + Json.elementsDepth vs ≤ limit →
      (Json.laterElements vs ++ ts).foldlM (parseToken limit) (.array acc :: stack, .next) =
        ts.foldlM (parseToken limit) (place (.array (acc.reverse ++ vs)) stack)
  | [], acc, stack, ts, _ => by
    rw [List.append_nil]
    rfl
  | v :: vs, acc, stack, ts, hdepth => by
    have hbounds : stack.length + 1 + v.depth ≤ limit ∧
        stack.length + 1 + Json.elementsDepth vs ≤ limit := by
      simp only [Json.elementsDepth] at hdepth
      omega
    have hacc : acc.reverse ++ v :: vs = (v :: acc).reverse ++ vs := by simp
    rw [Json.laterElements, List.cons_append, foldlM_cons, List.append_assoc, hacc]
    exact (parse_tokens v (.array acc :: stack) _ .value (.inl rfl) hbounds.1).trans
      (parse_laterElements vs (v :: acc) stack ts hbounds.2)

theorem parse_laterMembers : ∀ (ms acc : List (Bytes × Json)) (key : Bytes) (stack : List Frame)
    (ts : List Token), stack.length + 1 + Json.membersDepth ms ≤ limit →
      (Json.laterMembers ms ++ ts).foldlM (parseToken limit) (.object acc key :: stack, .next) =
        ts.foldlM (parseToken limit) (place (.object (acc.reverse ++ ms)) stack)
  | [], acc, key, stack, ts, _ => by
    rw [List.append_nil]
    rfl
  | (key', v) :: ms, acc, key, stack, ts, hdepth => by
    have hbounds : stack.length + 1 + v.depth ≤ limit ∧
        stack.length + 1 + Json.membersDepth ms ≤ limit := by
      simp only [Json.membersDepth] at hdepth
      omega
    have hacc : acc.reverse ++ (key', v) :: ms = ((key', v) :: acc).reverse ++ ms := by simp
    rw [Json.laterMembers, List.cons_append, foldlM_cons, List.cons_append, List.cons_append,
      List.append_assoc, hacc]
    exact (parse_tokens v (.object acc key' :: stack) _ .value (.inl rfl) hbounds.1).trans
      (parse_laterMembers ms ((key', v) :: acc) key' stack ts hbounds.2)

end

end

mutual

theorem depth_mapStrings (f : Bytes → Bytes) : ∀ v : Json, (v.mapStrings f).depth = v.depth
  | .null | .bool _ | .number _ | .string _ => rfl
  | .array es => by rw [Json.mapStrings, Json.depth, Json.depth, depth_mapElements f es]
  | .object ms => by rw [Json.mapStrings, Json.depth, Json.depth, depth_mapMembers f ms]

theorem depth_mapElements (f : Bytes → Bytes) :
    ∀ es : List Json, Json.elementsDepth (Json.mapElements f es) = Json.elementsDepth es
  | [] => rfl
  | v :: vs => by
    rw [Json.mapElements, Json.elementsDepth, Json.elementsDepth, depth_mapStrings f v,
      depth_mapElements f vs]

theorem depth_mapMembers (f : Bytes → Bytes) :
    ∀ ms : List (Bytes × Json), Json.membersDepth (Json.mapMembers f ms) = Json.membersDepth ms
  | [] => rfl
  | (key, v) :: ms => by
    rw [Json.mapMembers, Json.membersDepth, Json.membersDepth, depth_mapStrings f v,
      depth_mapMembers f ms]

end

/-- A well-formed value is read back from its text, strings escaped. -/
theorem parse_encode {escape : Bytes → Bytes}
    (hescape : ∀ raw, StringLexeme raw → StringLexeme (escape raw)) {limit : ℕ} {v : Json}
    (h : v.WellFormed) (hdepth : v.depth ≤ limit) :
    parse limit (encode escape v) = some (v.mapStrings escape) := by
  have htokens := tokens_encode hescape v h [] (.inl rfl)
  rw [List.append_nil] at htokens
  have hdone : tokens .between [] = some [] := rfl
  rw [hdone, Option.map_some, List.append_nil] at htokens
  have hparse : ((v.mapStrings escape).tokens ++ []).foldlM (parseToken limit) ([], .value) =
      some (place (v.mapStrings escape) []) :=
    parse_tokens _ [] [] .value (.inl rfl) (by simpa [depth_mapStrings] using hdepth)
  rw [List.append_nil] at hparse
  rw [parse, htokens]
  change ((v.mapStrings escape).tokens.foldlM (parseToken limit) ([], .value)).bind _ = _
  rw [hparse]
  rfl

/-- What has been read of the token in hand. -/
def Mode.WellFormed : Mode → Prop
  | .number phase raw => NumberUpTo phase raw.reverse
  | .string raw => StringLexeme raw.reverse
  | .escape raw => ∃ front, raw = byte '\\' :: front ∧ StringLexeme front.reverse
  | .hex missing raw => ∃ digits front, raw = digits ++ byte 'u' :: byte '\\' :: front ∧
      1 ≤ missing ∧ digits.length + missing = 4 ∧ (∀ d ∈ digits, isHexDigit d) ∧
        StringLexeme front.reverse
  | .word _ token => token.WellFormed
  | .between => True

theorem beginToken_wellFormed {b : UInt8} {now : List Token} {mode : Mode}
    (h : beginToken b = some (now, mode)) :
    (∀ t ∈ now, t.WellFormed) ∧ mode.WellFormed := by
  have hstart : ∀ {phase}, NumberPhase.start b = some phase → NumberUpTo phase [b] :=
    fun hphase => ⟨b, [], _, rfl, hphase, rfl⟩
  unfold beginToken at h
  split at h
  next token htoken =>
    obtain ⟨rfl, rfl⟩ := Prod.mk.inj (Option.some.inj h)
    have hplain : token.WellFormed := by
      unfold punctuation at htoken
      split_ifs at htoken <;> cases htoken <;> exact trivial
    exact ⟨by simpa using hplain, trivial⟩
  next =>
    split_ifs at h with hblank hquote hminus hzero hdigit htrue hfalse hnull
    all_goals obtain ⟨rfl, rfl⟩ := Prod.mk.inj (Option.some.inj h)
    · exact ⟨nofun, trivial⟩
    · exact ⟨nofun, .nil⟩
    · exact ⟨nofun, hstart (by simp [NumberPhase.start, hminus])⟩
    · exact ⟨nofun, hstart (by simp [NumberPhase.start, hminus, hzero])⟩
    · exact ⟨nofun, hstart (by simp [NumberPhase.start, hminus, hzero, hdigit])⟩
    · exact ⟨nofun, trivial⟩
    · exact ⟨nofun, trivial⟩
    · exact ⟨nofun, trivial⟩

theorem StringLexeme.concat {raw : Bytes} {b : UInt8} (h : StringLexeme raw)
    (hdouble : b ≠ byte '"') (hbackslash : b ≠ byte '\\') (hlow : ¬ b < 0x20) :
    StringLexeme (raw ++ [b]) := h.append (.plain hdouble hbackslash hlow .nil)

theorem step_wellFormed {mode mode' : Mode} {b : UInt8} {now : List Token}
    (h : step mode b = some (now, mode')) (hmode : mode.WellFormed) :
    (∀ t ∈ now, t.WellFormed) ∧ mode'.WellFormed := by
  cases mode with
  | between => exact beginToken_wellFormed h
  | word rest token =>
    cases rest with
    | nil => cases h
    | cons c rest =>
      simp only [step] at h
      split_ifs at h
      all_goals obtain ⟨rfl, rfl⟩ := Prod.mk.inj (Option.some.inj h)
      · exact ⟨by simpa [Mode.WellFormed] using hmode, trivial⟩
      · exact ⟨nofun, hmode⟩
  | number phase raw =>
    simp only [step] at h
    split at h
    next next hnext =>
      obtain ⟨rfl, rfl⟩ := Prod.mk.inj (Option.some.inj h)
      obtain ⟨c, rest, first, hraw, hstart, hrest⟩ := hmode
      refine ⟨nofun, c, rest ++ [b], first, by simp [hraw], hstart, ?_⟩
      rw [List.foldlM_append, hrest]
      simpa using hnext
    next =>
      split_ifs at h with hcomplete
      obtain ⟨⟨tokens, mode''⟩, hbegin, heq⟩ := Option.map_eq_some_iff.1 h
      obtain ⟨rfl, rfl⟩ := Prod.mk.inj heq
      obtain ⟨htokens, hmode''⟩ := beginToken_wellFormed hbegin
      refine ⟨?_, hmode''⟩
      intro t ht
      rcases List.mem_cons.1 ht with rfl | ht
      · exact ⟨phase, hmode, hcomplete⟩
      · exact htokens t ht
  | string raw =>
    simp only [step] at h
    split_ifs at h with hquote hbackslash hlow
    all_goals obtain ⟨rfl, rfl⟩ := Prod.mk.inj (Option.some.inj h)
    · exact ⟨by simpa [Mode.WellFormed, Token.WellFormed] using hmode, trivial⟩
    · obtain rfl : b = byte '\\' := by simpa using hbackslash
      exact ⟨nofun, raw, rfl, hmode⟩
    · refine ⟨nofun, ?_⟩
      have hconcat := hmode.concat (by simpa using hquote) (by simpa using hbackslash) hlow
      simpa [Mode.WellFormed] using hconcat
  | escape raw =>
    obtain ⟨front, rfl, hfront⟩ := hmode
    simp only [step] at h
    split_ifs at h with hu he
    all_goals obtain ⟨rfl, rfl⟩ := Prod.mk.inj (Option.some.inj h)
    · obtain rfl : b = byte 'u' := by simpa using hu
      exact ⟨nofun, [], front, rfl, by omega, rfl, nofun, hfront⟩
    · refine ⟨nofun, ?_⟩
      have hescape := hfront.append (StringLexeme.escape he .nil)
      simpa [Mode.WellFormed] using hescape
  | hex missing raw =>
    obtain ⟨digits, front, rfl, hmissing, hlength, hdigits, hfront⟩ := hmode
    simp only [step] at h
    split_ifs at h with hb hlast
    all_goals obtain ⟨rfl, rfl⟩ := Prod.mk.inj (Option.some.inj h)
    · obtain ⟨d₃, d₂, d₁, rfl⟩ := List.length_eq_three.1 (by omega : digits.length = 3)
      have hunicode := hfront.append (StringLexeme.unicode (hdigits d₁ (by simp))
        (hdigits d₂ (by simp)) (hdigits d₃ (by simp)) hb .nil)
      exact ⟨nofun, by simpa [Mode.WellFormed] using hunicode⟩
    · refine ⟨nofun, b :: digits, front, rfl, by omega, ?_, ?_, hfront⟩
      · rw [List.length_cons]
        omega
      · intro d hd
        rcases List.mem_cons.1 hd with rfl | hd
        · exact hb
        · exact hdigits d hd

theorem finish_wellFormed {mode : Mode} {now : List Token} (h : finish mode = some now)
    (hmode : mode.WellFormed) : ∀ t ∈ now, t.WellFormed := by
  cases mode with
  | number phase raw =>
    simp only [finish] at h
    split_ifs at h with hcomplete
    obtain rfl := Option.some.inj h
    intro t ht
    obtain rfl := List.mem_singleton.1 ht
    exact ⟨phase, hmode, hcomplete⟩
  | between =>
    obtain rfl : [] = now := Option.some.inj h
    exact nofun
  | _ => cases h

theorem tokens_wellFormed {bs : Bytes} {mode : Mode} (hmode : mode.WellFormed) {ts : List Token}
    (h : tokens mode bs = some ts) : ∀ t ∈ ts, t.WellFormed := by
  induction bs generalizing mode ts with
  | nil => exact finish_wellFormed h hmode
  | cons b bs ih =>
    rw [tokens_cons] at h
    obtain ⟨⟨now, mode'⟩, hstep, h⟩ := Option.bind_eq_some_iff.1 h
    obtain ⟨later, hlater, rfl⟩ := Option.map_eq_some_iff.1 h
    obtain ⟨hnow, hmode'⟩ := step_wellFormed hstep hmode
    intro t ht
    rcases List.mem_append.1 ht with ht | ht
    · exact hnow t ht
    · exact ih hmode' hlater t ht

/-- A value fit for a place with `height` containers around it. -/
def Fits (limit height : ℕ) (v : Json) : Prop := v.WellFormed ∧ height + v.depth ≤ limit

def Frame.Fits (limit height : ℕ) : Frame → Prop
  | .array es => ∀ v ∈ es, JsonText.Fits limit height v
  | .object ms key => StringLexeme key ∧ ∀ m ∈ ms, StringLexeme m.1 ∧ JsonText.Fits limit height m.2

/-- Open containers hold what fits in them. -/
def StackFits (limit : ℕ) : List Frame → Prop
  | [] => True
  | frame :: stack => stack.length < limit ∧ frame.Fits limit (stack.length + 1) ∧
      StackFits limit stack

def StateFits (limit : ℕ) (state : List Frame × Expecting) : Prop :=
  StackFits limit state.1 ∧ ∀ v, state.2 = .done v → Fits limit 0 v

section
variable {limit : ℕ} {stack : List Frame}

theorem place_fits {v : Json} (hv : Fits limit stack.length v) (hstack : StackFits limit stack) :
    StateFits limit (place v stack) := by
  cases stack with
  | nil =>
    refine ⟨trivial, fun w hw => ?_⟩
    obtain rfl : v = w := Expecting.done.inj hw
    exact hv
  | cons frame stack =>
    obtain ⟨hroom, hframe, hstack⟩ := hstack
    cases frame with
    | array es =>
      refine ⟨⟨hroom, ?_, hstack⟩, nofun⟩
      intro w hw
      rcases List.mem_cons.1 hw with rfl | hw
      · exact hv
      · exact hframe w hw
    | object ms key =>
      refine ⟨⟨hroom, ⟨hframe.1, ?_⟩, hstack⟩, nofun⟩
      intro m hm
      rcases List.mem_cons.1 hm with rfl | hm
      · exact ⟨hframe.1, hv⟩
      · exact hframe.2 m hm

theorem openContainer_fits {frame : Frame} {expecting : Expecting} (hexp : ∀ v, expecting ≠ .done v)
    (hframe : ∀ height, frame.Fits limit height) (hstack : StackFits limit stack)
    {state : List Frame × Expecting}
    (h : openContainer limit frame expecting stack = some state) : StateFits limit state := by
  unfold openContainer at h
  split_ifs at h with hroom
  obtain rfl := Option.some.inj h
  exact ⟨⟨hroom, hframe _, hstack⟩, fun v hv => absurd hv (hexp v)⟩

/-- A container fits when what it holds fits inside. -/
theorem fits_array {es : List Json} {height : ℕ} (hroom : height < limit)
    (h : ∀ v ∈ es, Fits limit (height + 1) v) : Fits limit height (.array es) := by
  refine ⟨Json.elementsWellFormed_iff.2 fun v hv => (h v hv).1, ?_⟩
  have hdepth : Json.elementsDepth es ≤ limit - (height + 1) :=
    Json.elementsDepth_le.2 fun v hv => by
      have hbound := (h v hv).2
      omega
  rw [Json.depth]
  omega

theorem fits_object {ms : List (Bytes × Json)} {height : ℕ} (hroom : height < limit)
    (h : ∀ m ∈ ms, StringLexeme m.1 ∧ Fits limit (height + 1) m.2) :
    Fits limit height (.object ms) := by
  refine ⟨Json.membersWellFormed_iff.2 fun m hm => ⟨(h m hm).1, (h m hm).2.1⟩, ?_⟩
  have hdepth : Json.membersDepth ms ≤ limit - (height + 1) :=
    Json.membersDepth_le.2 fun m hm => by
      have hbound := (h m hm).2.2
      omega
  rw [Json.depth]
  omega

theorem closeContainer_fits (hstack : StackFits limit stack) {token : Token}
    {state : List Frame × Expecting} (h : closeContainer stack token = some state) :
    StateFits limit state := by
  unfold closeContainer at h
  split at h
  next es stack =>
    obtain rfl := Option.some.inj h
    obtain ⟨hroom, hframe, hstack⟩ := hstack
    exact place_fits (fits_array hroom fun v hv => hframe v (List.mem_reverse.1 hv)) hstack
  next ms key stack =>
    obtain rfl := Option.some.inj h
    obtain ⟨hroom, hframe, hstack⟩ := hstack
    exact place_fits (fits_object hroom fun m hm => hframe.2 m (List.mem_reverse.1 hm)) hstack
  next => cases h

/-- The innermost container may hold one more level. -/
theorem length_le_limit (hstack : StackFits limit stack) : stack.length ≤ limit := by
  cases stack with
  | nil => exact Nat.zero_le _
  | cons frame stack => exact hstack.1

theorem beginValue_fits (hstack : StackFits limit stack) {token : Token} (htoken : token.WellFormed)
    {state : List Frame × Expecting} (h : beginValue limit stack token = some state) :
    StateFits limit state := by
  have hlength := length_le_limit hstack
  have hscalar : ∀ v : Json, v.WellFormed → v.depth = 0 → StateFits limit (place v stack) :=
    fun v hv hdepth => place_fits ⟨hv, by omega⟩ hstack
  cases token with
  | null =>
    obtain rfl := Option.some.inj h
    exact hscalar _ trivial rfl
  | bool b =>
    obtain rfl := Option.some.inj h
    exact hscalar _ trivial rfl
  | number raw =>
    obtain rfl := Option.some.inj h
    exact hscalar (.number raw) htoken rfl
  | string raw =>
    obtain rfl := Option.some.inj h
    exact hscalar (.string raw) htoken rfl
  | beginArray =>
    have hempty : ∀ height, (Frame.array []).Fits limit height := fun _ v hv => by cases hv
    exact openContainer_fits (by simp) hempty hstack h
  | beginObject =>
    have hempty : ∀ height, (Frame.object [] []).Fits limit height :=
      fun _ => ⟨.nil, fun m hm => by cases hm⟩
    exact openContainer_fits (by simp) hempty hstack h
  | _ => cases h

theorem beginMember_fits (hstack : StackFits limit stack) {token : Token}
    (htoken : token.WellFormed) {state : List Frame × Expecting}
    (h : beginMember stack token = some state) : StateFits limit state := by
  unfold beginMember at h
  split at h
  next ms key stack raw =>
    obtain rfl := Option.some.inj h
    obtain ⟨hroom, hframe, hstack⟩ := hstack
    exact ⟨⟨hroom, ⟨htoken, hframe.2⟩, hstack⟩, nofun⟩
  next => cases h

theorem parseToken_fits {state state' : List Frame × Expecting} {token : Token}
    (hstate : StateFits limit state) (htoken : token.WellFormed)
    (h : parseToken limit state token = some state') : StateFits limit state' := by
  obtain ⟨stack, expecting⟩ := state
  obtain ⟨hstack, -⟩ := hstate
  cases expecting with
  | value => exact beginValue_fits hstack htoken h
  | element =>
    simp only [parseToken] at h
    split_ifs at h
    · exact closeContainer_fits hstack h
    · exact beginValue_fits hstack htoken h
  | member =>
    simp only [parseToken] at h
    split_ifs at h
    · exact closeContainer_fits hstack h
    · exact beginMember_fits hstack htoken h
  | key => exact beginMember_fits hstack htoken h
  | colon =>
    simp only [parseToken] at h
    split_ifs at h
    obtain rfl := Option.some.inj h
    exact ⟨hstack, nofun⟩
  | next =>
    simp only [parseToken] at h
    split_ifs at h
    · split at h
      all_goals
        obtain rfl := Option.some.inj h
        exact ⟨hstack, nofun⟩
    · exact closeContainer_fits hstack h
  | done v => cases h

theorem parseTokens_fits {ts : List Token} (hts : ∀ t ∈ ts, t.WellFormed)
    {state state' : List Frame × Expecting} (hstate : StateFits limit state)
    (h : ts.foldlM (parseToken limit) state = some state') : StateFits limit state' := by
  induction ts generalizing state with
  | nil =>
    obtain rfl : state = state' := Option.some.inj h
    exact hstate
  | cons t ts ih =>
    rw [foldlM_cons] at h
    obtain ⟨next, hnext, h⟩ := Option.bind_eq_some_iff.1 h
    exact ih (fun t ht => hts t (List.mem_cons_of_mem _ ht))
      (parseToken_fits hstate (hts t (by simp)) hnext) h

end

/-- A value that was read is well formed and nests no deeper than allowed. -/
theorem parse_fits {limit : ℕ} {text : Bytes} {v : Json} (h : parse limit text = some v) :
    v.WellFormed ∧ v.depth ≤ limit := by
  unfold parse at h
  obtain ⟨ts, hts, h⟩ := Option.bind_eq_some_iff.1 h
  obtain ⟨⟨stack, expecting⟩, hfinal, h⟩ := Option.bind_eq_some_iff.1 h
  have hmode : Mode.WellFormed .between := trivial
  have hstart : StateFits limit ([], .value) := ⟨trivial, nofun⟩
  have hstate := parseTokens_fits (tokens_wellFormed hmode hts) hstart hfinal
  split at h
  next w hw =>
    obtain rfl := Option.some.inj h
    have hfits := hstate.2 w hw
    exact ⟨hfits.1, by simpa using hfits.2⟩
  next => cases h

/-- A value without the way it is written. -/
inductive Value where
  | null
  | bool (b : Bool)
  | number (raw : Bytes)
  | string (s : Str)
  | array (elements : List Value)
  | object (members : List (Str × Value))

mutual

def Json.value : Json → Value
  | .null => .null
  | .bool b => .bool b
  | .number raw => .number raw
  | .string raw => .string (unquote raw)
  | .array es => .array (elementValues es)
  | .object ms => .object (memberValues ms)

def elementValues : List Json → List Value
  | [] => []
  | v :: vs => v.value :: elementValues vs

def memberValues : List (Bytes × Json) → List (Str × Value)
  | [] => []
  | (key, v) :: ms => (unquote key, v.value) :: memberValues ms

end

theorem elementValues_eq_map (es : List Json) : elementValues es = es.map Json.value := by
  induction es with
  | nil => rfl
  | cons v es ih => rw [elementValues, ih, List.map_cons]

section
variable {f : Bytes → Bytes}

mutual

/-- Escaping that keeps what strings say keeps the value. -/
theorem value_mapStrings (hf : ∀ raw, StringLexeme raw → unquote (f raw) = unquote raw) :
    ∀ v : Json, v.WellFormed → (v.mapStrings f).value = v.value
  | .null, _ => rfl
  | .bool _, _ => rfl
  | .number _, _ => rfl
  | .string raw, h => by rw [Json.mapStrings, Json.value, Json.value, hf raw h]
  | .array es, h => by
    rw [Json.mapStrings, Json.value, Json.value, value_mapElements hf es h]
  | .object ms, h => by
    rw [Json.mapStrings, Json.value, Json.value, value_mapMembers hf ms h]

theorem value_mapElements (hf : ∀ raw, StringLexeme raw → unquote (f raw) = unquote raw) :
    ∀ es : List Json, Json.ElementsWellFormed es →
      elementValues (Json.mapElements f es) = elementValues es
  | [], _ => rfl
  | v :: vs, h => by
    rw [Json.mapElements, elementValues, elementValues, value_mapStrings hf v h.1,
      value_mapElements hf vs h.2]

theorem value_mapMembers (hf : ∀ raw, StringLexeme raw → unquote (f raw) = unquote raw) :
    ∀ ms : List (Bytes × Json), Json.MembersWellFormed ms →
      memberValues (Json.mapMembers f ms) = memberValues ms
  | [], _ => rfl
  | (key, v) :: ms, h => by
    rw [Json.mapMembers, memberValues, memberValues, hf key h.1, value_mapStrings hf v h.2.1,
      value_mapMembers hf ms h.2.2]

end

end

end BitcoinRpcOperator.JsonText
