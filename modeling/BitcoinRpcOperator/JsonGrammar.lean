import BitcoinRpcOperator.JsonRoundTrip

/-!
# The grammar of JSON texts

A JSON text is the tokens of a value, one after the other, with white space anywhere between
them and at both ends. The reader accepts these texts, nested as deep as it lets them, and no
others.
-/

namespace BitcoinRpcOperator.JsonText
open Text

def Blanks (bs : Bytes) : Prop := ∀ b ∈ bs, isBlank b

def Token.lexeme : Token → Bytes
  | .beginObject => [byte '\x7b']
  | .endObject => [byte '\x7d']
  | .beginArray => [byte '[']
  | .endArray => [byte ']']
  | .colon => [byte ':']
  | .comma => [byte ',']
  | .null => utf8 "null".toList
  | .bool true => utf8 "true".toList
  | .bool false => utf8 "false".toList
  | .number raw => raw
  | .string raw => byte '"' :: raw ++ [byte '"']

/-- Tokens with white space between them. -/
inductive Spelled : List Token → Bytes → Prop
  | nil {ws : Bytes} : Blanks ws → Spelled [] ws
  | cons {ws rest : Bytes} {token : Token} {ts : List Token} : Blanks ws → Spelled ts rest →
      Spelled (token :: ts) (ws ++ (token.lexeme ++ rest))

/-- The bytes are a text of the value. -/
structure IsText (v : Json) (text : Bytes) : Prop where
  lexemes : v.WellFormed
  spelled : Spelled v.tokens text

theorem Blanks.append {a b : Bytes} (ha : Blanks a) (hb : Blanks b) : Blanks (a ++ b) := by
  intro c hc
  rcases List.mem_append.1 hc with hc | hc
  · exact ha c hc
  · exact hb c hc

theorem blanks_nil : Blanks [] := fun _ h => absurd h List.not_mem_nil

theorem blanks_cons {b : UInt8} {bs : Bytes} (hb : isBlank b) (h : Blanks bs) : Blanks (b :: bs) := by
  intro c hc
  rcases List.mem_cons.1 hc with rfl | hc
  · exact hb
  · exact h c hc

namespace Spelled

variable {ts : List Token} {token : Token} {text ws : Bytes}

/-- White space in front. -/
theorem behind (hws : Blanks ws) (h : Spelled ts text) : Spelled ts (ws ++ text) := by
  cases h with
  | nil h => exact .nil (hws.append h)
  | cons h hrest =>
    rw [← List.append_assoc]
    exact .cons (hws.append h) hrest

theorem before (h : Spelled ts text) (hws : Blanks ws) : Spelled ts (text ++ ws) := by
  induction h with
  | nil h => exact .nil (h.append hws)
  | cons h _ ih =>
    rw [List.append_assoc, List.append_assoc]
    exact .cons h ih

theorem next (h : Spelled ts text) : Spelled (token :: ts) (token.lexeme ++ text) :=
  .cons blanks_nil h

/-- The last token has nothing but white space behind it. -/
theorem snoc (h : Spelled (ts ++ [token]) text) :
    ∃ front back, text = front ++ token.lexeme ++ back ∧ Spelled ts front ∧ Blanks back := by
  induction ts generalizing text with
  | nil =>
    cases h with
    | cons hws hrest =>
      cases hrest with
      | nil hback => exact ⟨_, _, by rw [List.append_assoc], .nil hws, hback⟩
  | cons a ts ih =>
    cases h with
    | cons hws hrest =>
      obtain ⟨front, back, rfl, hfront, hback⟩ := ih hrest
      exact ⟨_, back, by simp only [List.append_assoc], .cons hws hfront, hback⟩

theorem concat (h : Spelled ts text) : Spelled (ts ++ [token]) (text ++ token.lexeme) := by
  induction h with
  | nil h => exact (List.append_nil token.lexeme) ▸ .cons h (.nil blanks_nil)
  | cons h _ ih =>
    rw [List.append_assoc, List.append_assoc]
    exact .cons h ih

end Spelled

/-- What is left to read, and the tokens that come of it. -/
def Reads : Mode → Bytes → List Token → Prop
  | .between, bs, ts => Spelled ts bs
  | .word rest token, bs, ts => ∃ bs' ts', bs = rest ++ bs' ∧ ts = token :: ts' ∧ Spelled ts' bs'
  | .number _ raw, bs, ts =>
    ∃ more bs' ts', bs = more ++ bs' ∧ ts = .number (raw.reverse ++ more) :: ts' ∧ Spelled ts' bs'
  | .string raw, bs, ts | .escape raw, bs, ts | .hex _ raw, bs, ts =>
    ∃ more bs' ts', bs = more ++ byte '"' :: bs' ∧ ts = .string (raw.reverse ++ more) :: ts' ∧
      Spelled ts' bs'

theorem punctuation_lexeme {b : UInt8} {token : Token} (h : punctuation b = some token) :
    token.lexeme = [b] := by
  unfold punctuation at h
  split_ifs at h with h₁ h₂ h₃ h₄ h₅ h₆ <;> cases h
  · rw [eq_of_beq h₁]; rfl
  · rw [eq_of_beq h₂]; rfl
  · rw [eq_of_beq h₃]; rfl
  · rw [eq_of_beq h₄]; rfl
  · rw [eq_of_beq h₅]; rfl
  · rw [eq_of_beq h₆]; rfl

theorem beginToken_reads {b : UInt8} {bs : Bytes} {now later : List Token} {mode : Mode}
    (h : beginToken b = some (now, mode)) (hlater : Reads mode bs later) :
    Spelled (now ++ later) (b :: bs) := by
  unfold beginToken at h
  split at h
  next token hpunctuation =>
    cases h
    have hnext : Spelled (token :: later) (token.lexeme ++ bs) := .next hlater
    rwa [punctuation_lexeme hpunctuation] at hnext
  next =>
    split_ifs at h with hblank hquote hminus hzero hdigit htrue hfalse hnull <;> cases h
    · have hws : Blanks [b] := blanks_cons hblank blanks_nil
      exact Spelled.behind hws hlater
    · obtain ⟨more, bs', ts', rfl, rfl, hts⟩ := hlater
      have hnext : Spelled (.string more :: ts') ((Token.string more).lexeme ++ bs') := .next hts
      rw [eq_of_beq hquote]
      simpa [Token.lexeme] using hnext
    · obtain ⟨more, bs', ts', rfl, rfl, hts⟩ := hlater
      exact Spelled.next hts
    · obtain ⟨more, bs', ts', rfl, rfl, hts⟩ := hlater
      exact Spelled.next hts
    · obtain ⟨more, bs', ts', rfl, rfl, hts⟩ := hlater
      exact Spelled.next hts
    · obtain ⟨bs', ts', rfl, rfl, hts⟩ := hlater
      rw [eq_of_beq htrue]
      exact Spelled.next hts
    · obtain ⟨bs', ts', rfl, rfl, hts⟩ := hlater
      rw [eq_of_beq hfalse]
      exact Spelled.next hts
    · obtain ⟨bs', ts', rfl, rfl, hts⟩ := hlater
      rw [eq_of_beq hnull]
      exact Spelled.next hts

/-- One more byte of a lexeme. -/
theorem reads_inside {b : UInt8} {bs raw : Bytes} {later : List Token}
    (h : Reads (.string (b :: raw)) bs later) : Reads (.string raw) (b :: bs) later := by
  obtain ⟨more, bs', ts', rfl, rfl, hts⟩ := h
  exact ⟨b :: more, bs', ts', rfl, by simp, hts⟩

theorem step_reads {mode mode' : Mode} {b : UInt8} {bs : Bytes} {now later : List Token}
    (h : step mode b = some (now, mode')) (hlater : Reads mode' bs later) :
    Reads mode (b :: bs) (now ++ later) := by
  cases mode with
  | between => exact beginToken_reads h hlater
  | word rest token =>
    cases rest with
    | nil => cases h
    | cons c rest =>
      simp only [step] at h
      split_ifs at h with hc hrest <;> cases h
      · obtain rfl := List.isEmpty_iff.1 hrest
        exact ⟨bs, later, by rw [eq_of_beq hc]; rfl, rfl, hlater⟩
      · obtain ⟨bs', ts', rfl, rfl, hts⟩ := hlater
        exact ⟨bs', ts', by rw [eq_of_beq hc]; rfl, rfl, hts⟩
  | number phase raw =>
    simp only [step] at h
    split at h
    · cases h
      obtain ⟨more, bs', ts', rfl, rfl, hts⟩ := hlater
      exact ⟨b :: more, bs', ts', rfl, by simp, hts⟩
    · split_ifs at h
      obtain ⟨⟨first, mode''⟩, hbegin, heq⟩ := Option.map_eq_some_iff.1 h
      cases heq
      exact ⟨[], b :: bs, first ++ later, rfl, by simp, beginToken_reads hbegin hlater⟩
  | string raw =>
    simp only [step] at h
    split_ifs at h with hquote hslash hlow <;> cases h
    · exact ⟨[], bs, later, by rw [eq_of_beq hquote]; rfl, by simp, hlater⟩
    · exact reads_inside hlater
    · exact reads_inside hlater
  | escape raw =>
    simp only [step] at h
    split_ifs at h <;> cases h
    · exact reads_inside hlater
    · exact reads_inside hlater
  | hex missing raw =>
    simp only [step] at h
    split_ifs at h <;> cases h
    · exact reads_inside hlater
    · exact reads_inside hlater

theorem tokens_reads {bs : Bytes} {mode : Mode} {ts : List Token} (h : tokens mode bs = some ts) :
    Reads mode bs ts := by
  induction bs generalizing mode ts with
  | nil =>
    rw [tokens] at h
    cases mode with
    | between =>
      cases h
      exact .nil blanks_nil
    | number phase raw =>
      simp only [finish] at h
      split_ifs at h
      cases h
      exact ⟨[], [], [], rfl, by simp, .nil blanks_nil⟩
    | word rest token => cases h
    | string raw => cases h
    | escape raw => cases h
    | hex missing raw => cases h
  | cons b bs ih =>
    rw [tokens_cons] at h
    obtain ⟨⟨now, mode'⟩, hstep, hrest⟩ := Option.bind_eq_some_iff.1 h
    obtain ⟨later, hlater, rfl⟩ := Option.map_eq_some_iff.1 hrest
    exact step_reads hstep (ih hlater)

namespace Token

def isNumber : Token → Bool
  | .number _ => true
  | _ => false

def isPunctuation : Token → Bool
  | .beginObject | .endObject | .beginArray | .endArray | .colon | .comma => true
  | _ => false

/-- A number needs something behind it that ends it. -/
def Follows (a b : Token) : Prop := a.isNumber → b.isPunctuation

end Token

theorem lexeme_punctuation {token : Token} (h : token.isPunctuation) :
    ∃ b, token.lexeme = [b] ∧ punctuation b = some token := by
  cases token with
  | beginObject => exact ⟨_, rfl, rfl⟩
  | endObject => exact ⟨_, rfl, rfl⟩
  | beginArray => exact ⟨_, rfl, rfl⟩
  | endArray => exact ⟨_, rfl, rfl⟩
  | colon => exact ⟨_, rfl, rfl⟩
  | comma => exact ⟨_, rfl, rfl⟩
  | null => cases h
  | bool b => cases h
  | number raw => cases h
  | string raw => cases h

theorem isBlank_cases {b : UInt8} (h : isBlank b) :
    b ∈ [byte ' ', byte '\t', byte '\n', byte '\r'] := by
  simpa [isBlank, or_assoc] using h

theorem next_blank {b : UInt8} (h : isBlank b) (phase : NumberPhase) : phase.next b = none := by
  have hall : ∀ b ∈ [byte ' ', byte '\t', byte '\n', byte '\r'], phase.next b = none := by
    cases phase <;> decide
  exact hall b (isBlank_cases h)

theorem step_blank {b : UInt8} (h : isBlank b) : step .between b = some ([], .between) := by
  have hall : ∀ b ∈ [byte ' ', byte '\t', byte '\n', byte '\r'], punctuation b = none := by decide
  simp [step, beginToken, hall b (isBlank_cases h), h]

theorem tokens_blanks {ws : Bytes} (h : Blanks ws) (bs : Bytes) :
    tokens .between (ws ++ bs) = tokens .between bs := by
  induction ws with
  | nil => rfl
  | cons b ws ih =>
    rw [List.cons_append, tokens_silent (step_blank (h b (List.mem_cons_self ..)))]
    exact ih fun c hc => h c (List.mem_cons_of_mem _ hc)

theorem ends_spelled {ts : List Token} {bs : Bytes} (h : Spelled ts bs)
    (hts : ∀ t ∈ ts.head?, t.isPunctuation) : Ends bs := by
  intro b rest heq phase
  cases h with
  | nil hws =>
    subst heq
    exact next_blank (hws b (List.mem_cons_self ..)) phase
  | @cons ws rest' token ts hws hrest =>
    cases ws with
    | nil =>
      obtain ⟨c, hlexeme, hc⟩ := lexeme_punctuation (hts token rfl)
      rw [hlexeme] at heq
      cases heq
      exact next_punctuation hc phase
    | cons a ws =>
      cases heq
      exact next_blank (hws b (List.mem_cons_self ..)) phase

theorem tokens_lexeme {token : Token} (hwf : token.WellFormed) {bs : Bytes}
    (hends : token.isNumber → Ends bs) :
    tokens .between (token.lexeme ++ bs) = (tokens .between bs).map (token :: ·) := by
  cases token with
  | beginObject => exact tokens_punctuation rfl bs
  | endObject => exact tokens_punctuation rfl bs
  | beginArray => exact tokens_punctuation rfl bs
  | endArray => exact tokens_punctuation rfl bs
  | colon => exact tokens_punctuation rfl bs
  | comma => exact tokens_punctuation rfl bs
  | null =>
    have hstep : step .between (byte 'n') = some ([], .word (utf8 "ull".toList) .null) := rfl
    exact (tokens_silent hstep _).trans (tokens_word (by decide +kernel) .null bs)
  | bool b =>
    cases b with
    | false =>
      have hstep : step .between (byte 'f') = some ([], .word (utf8 "alse".toList) (.bool false)) := rfl
      exact (tokens_silent hstep _).trans (tokens_word (by decide +kernel) (.bool false) bs)
    | true =>
      have hstep : step .between (byte 't') = some ([], .word (utf8 "rue".toList) (.bool true)) := rfl
      exact (tokens_silent hstep _).trans (tokens_word (by decide +kernel) (.bool true) bs)
  | number raw =>
    obtain ⟨last, ⟨b, rest, first, rfl, hstart, hrest⟩, hlast⟩ := hwf
    exact (tokens_silent (start_beginToken hstart) _).trans (tokens_number hrest hlast (hends rfl))
  | string raw =>
    have hstep : step .between (byte '"') = some ([], .string []) := rfl
    have htext : (Token.string raw).lexeme ++ bs = byte '"' :: (raw ++ byte '"' :: bs) := by
      simp [Token.lexeme]
    rw [htext, tokens_silent hstep]
    exact tokens_string hwf [] bs

theorem tokens_spelled {ts : List Token} {text : Bytes} (h : Spelled ts text)
    (hwf : ∀ t ∈ ts, t.WellFormed) (hchain : ts.IsChain Token.Follows) :
    tokens .between text = some ts := by
  induction h with
  | nil hws =>
    have hblanks := tokens_blanks hws []
    rw [List.append_nil] at hblanks
    rw [hblanks]
    rfl
  | cons hws hrest ih =>
    rw [List.isChain_cons] at hchain
    have hends := fun hnumber => ends_spelled hrest fun t ht => hchain.1 t ht hnumber
    rw [tokens_blanks hws, tokens_lexeme (hwf _ (List.mem_cons_self ..)) hends,
      ih (fun t ht => hwf t (List.mem_cons_of_mem _ ht)) hchain.2]
    rfl

/-- Whatever comes in front may end here. -/
def Closed (ts : List Token) : Prop := ts.IsChain Token.Follows ∧ ∀ t ∈ ts.head?, t.isPunctuation

theorem Closed.head {ts : List Token} (h : Closed ts) (token : Token) :
    (token :: ts).IsChain Token.Follows :=
  List.isChain_cons.2 ⟨fun t ht _ => h.2 t ht, h.1⟩

/-- Punctuation may be in front of anything. -/
theorem closed_cons {token : Token} {ts : List Token} (htoken : token.isPunctuation)
    (h : ts.IsChain Token.Follows) : Closed (token :: ts) := by
  have hnumber : ¬ token.isNumber := by
    intro hnumber
    cases token <;> simp_all [Token.isNumber, Token.isPunctuation]
  refine ⟨List.isChain_cons.2 ⟨fun t _ hn => absurd hn hnumber, h⟩, ?_⟩
  intro t ht
  cases ht
  exact htoken

theorem closed_nil : Closed [] := ⟨List.isChain_nil, fun _ ht => by cases ht⟩

mutual

theorem chain_tokens : ∀ (v : Json) {ts : List Token}, Closed ts →
    (v.tokens ++ ts).IsChain Token.Follows
  | .null, _, h | .bool _, _, h | .number _, _, h | .string _, _, h => h.head _
  | .array [], _, h => (closed_cons rfl (closed_cons rfl h.1).1).1
  | .array (v :: vs), ts, h => by
    rw [Json.tokens, List.cons_append, List.append_assoc]
    exact (closed_cons rfl (chain_tokens v (closed_laterElements vs h.1))).1
  | .object [], _, h => (closed_cons rfl (closed_cons rfl h.1).1).1
  | .object ((key, v) :: ms), ts, h => by
    rw [Json.tokens, List.cons_append, List.cons_append, List.cons_append, List.append_assoc]
    have hvalue := chain_tokens v (closed_laterMembers ms h.1)
    exact (closed_cons rfl ((closed_cons rfl hvalue).head (.string key))).1

theorem closed_laterElements : ∀ (vs : List Json) {ts : List Token}, ts.IsChain Token.Follows →
    Closed (Json.laterElements vs ++ ts)
  | [], _, h => closed_cons rfl h
  | v :: vs, ts, h => by
    rw [Json.laterElements, List.cons_append, List.append_assoc]
    exact closed_cons rfl (chain_tokens v (closed_laterElements vs h))

theorem closed_laterMembers : ∀ (ms : List (Bytes × Json)) {ts : List Token},
    ts.IsChain Token.Follows → Closed (Json.laterMembers ms ++ ts)
  | [], _, h => closed_cons rfl h
  | (key, v) :: ms, ts, h => by
    rw [Json.laterMembers, List.cons_append, List.cons_append, List.cons_append, List.append_assoc]
    have hvalue := chain_tokens v (closed_laterMembers ms h)
    exact closed_cons rfl ((closed_cons rfl hvalue).head (.string key))

end

mutual

theorem tokens_wf : ∀ v : Json, v.WellFormed → ∀ t ∈ v.tokens, t.WellFormed
  | .null, _, t, ht | .bool _, _, t, ht => by
    obtain rfl := List.mem_singleton.1 ht
    trivial
  | .number raw, h, t, ht | .string raw, h, t, ht => by
    obtain rfl := List.mem_singleton.1 ht
    exact h
  | .array [], _, t, ht | .object [], _, t, ht => by
    simp only [Json.tokens, List.mem_cons, List.not_mem_nil, or_false] at ht
    rcases ht with rfl | rfl <;> trivial
  | .array (v :: vs), h, t, ht => by
    rw [Json.tokens, List.mem_cons, List.mem_append] at ht
    rcases ht with rfl | ht | ht
    · trivial
    · exact tokens_wf v h.1 t ht
    · exact laterElements_wf vs h.2 t ht
  | .object ((key, v) :: ms), h, t, ht => by
    rw [Json.tokens, List.mem_cons, List.mem_cons, List.mem_cons, List.mem_append] at ht
    rcases ht with rfl | rfl | rfl | ht | ht
    · trivial
    · exact h.1
    · trivial
    · exact tokens_wf v h.2.1 t ht
    · exact laterMembers_wf ms h.2.2 t ht

theorem laterElements_wf : ∀ vs : List Json, Json.ElementsWellFormed vs →
    ∀ t ∈ Json.laterElements vs, t.WellFormed
  | [], _, t, ht => by
    obtain rfl := List.mem_singleton.1 ht
    trivial
  | v :: vs, h, t, ht => by
    rw [Json.laterElements, List.mem_cons, List.mem_append] at ht
    rcases ht with rfl | ht | ht
    · trivial
    · exact tokens_wf v h.1 t ht
    · exact laterElements_wf vs h.2 t ht

theorem laterMembers_wf : ∀ ms : List (Bytes × Json), Json.MembersWellFormed ms →
    ∀ t ∈ Json.laterMembers ms, t.WellFormed
  | [], _, t, ht => by
    obtain rfl := List.mem_singleton.1 ht
    trivial
  | (key, v) :: ms, h, t, ht => by
    rw [Json.laterMembers, List.mem_cons, List.mem_cons, List.mem_cons, List.mem_append] at ht
    rcases ht with rfl | rfl | rfl | ht | ht
    · trivial
    · exact h.1
    · trivial
    · exact tokens_wf v h.2.1 t ht
    · exact laterMembers_wf ms h.2.2 t ht

end

theorem IsText.tokens {v : Json} {text : Bytes} (h : IsText v text) :
    tokens .between text = some v.tokens := by
  have hchain := chain_tokens v closed_nil
  rw [List.append_nil] at hchain
  exact tokens_spelled h.spelled (tokens_wf v h.lexemes) hchain

def elementsRead (es : List Json) : List Token := es.reverse.flatMap fun v => v.tokens ++ [.comma]

def memberTokens (m : Bytes × Json) : List Token := .string m.1 :: .colon :: m.2.tokens

def membersRead (ms : List (Bytes × Json)) : List Token :=
  ms.reverse.flatMap fun m => memberTokens m ++ [.comma]

/-- The tokens that have been read where a value comes next in these containers. -/
inductive Open : List Frame → List Token → Prop
  | nil : Open [] []
  | array {stack : List Frame} {ts : List Token} (es : List Json) : Open stack ts →
      Open (.array es :: stack) (ts ++ .beginArray :: elementsRead es)
  | object {stack : List Frame} {ts : List Token} (ms : List (Bytes × Json)) (key : Bytes) :
      Open stack ts →
      Open (.object ms key :: stack) (ts ++ .beginObject :: membersRead ms ++ [.string key, .colon])

/-- The tokens that have been read up to a comma or the end of the innermost container. -/
inductive Filled : List Frame → List Token → Prop
  | array {stack : List Frame} {ts : List Token} (v : Json) (es : List Json) : Open stack ts →
      Filled (.array (v :: es) :: stack) (ts ++ .beginArray :: elementsRead es ++ v.tokens)
  | object {stack : List Frame} {ts : List Token} (m : Bytes × Json) (ms : List (Bytes × Json))
      (key : Bytes) : Open stack ts →
      Filled (.object (m :: ms) key :: stack)
        (ts ++ .beginObject :: membersRead ms ++ memberTokens m)

/-- The tokens that have been read in a state of the reader. -/
def HasRead (state : List Frame × Expecting) (ts : List Token) : Prop :=
  match state.2 with
  | .value => Open state.1 ts
  | .element => Open state.1 ts ∧ ∃ stack, state.1 = .array [] :: stack
  | .member => ∃ stack key ts', Open stack ts' ∧ state.1 = .object [] key :: stack ∧
      ts = ts' ++ [.beginObject]
  | .key => ∃ ms stack key ts', Open stack ts' ∧ state.1 = .object ms key :: stack ∧
      ts = ts' ++ .beginObject :: membersRead ms
  | .colon => ∃ ms stack key ts', Open stack ts' ∧ state.1 = .object ms key :: stack ∧
      ts = ts' ++ .beginObject :: membersRead ms ++ [.string key]
  | .next => Filled state.1 ts
  | .done v => ts = v.tokens

theorem laterElements_concat (v w : Json) (vs : List Json) :
    v.tokens ++ Json.laterElements (vs ++ [w]) =
      ((v :: vs).flatMap fun v => v.tokens ++ [.comma]) ++ w.tokens ++ [.endArray] := by
  induction vs generalizing v with
  | nil => simp [Json.laterElements]
  | cons u vs ih =>
    rw [List.cons_append, Json.laterElements, ih u, List.flatMap_cons]
    simp

theorem laterMembers_concat (m n : Bytes × Json) (ms : List (Bytes × Json)) :
    memberTokens m ++ Json.laterMembers (ms ++ [n]) =
      ((m :: ms).flatMap fun m => memberTokens m ++ [.comma]) ++ memberTokens n ++ [.endObject] := by
  induction ms generalizing m with
  | nil => simp [Json.laterMembers, memberTokens]
  | cons l ms ih =>
    have hlater : Json.laterMembers (l :: (ms ++ [n])) =
        .comma :: (memberTokens l ++ Json.laterMembers (ms ++ [n])) := by
      simp [Json.laterMembers, memberTokens]
    rw [List.cons_append, hlater, ih l, List.flatMap_cons]
    simp

/-- The tokens of an array, by its last element. -/
theorem tokens_array (v : Json) (es : List Json) : (Json.array (v :: es).reverse).tokens =
    .beginArray :: elementsRead es ++ v.tokens ++ [.endArray] := by
  rw [List.reverse_cons, elementsRead]
  cases es.reverse with
  | nil => simp [Json.tokens, Json.laterElements]
  | cons u us =>
    rw [List.cons_append, Json.tokens, laterElements_concat]
    rfl

theorem tokens_object (m : Bytes × Json) (ms : List (Bytes × Json)) :
    (Json.object (m :: ms).reverse).tokens =
      .beginObject :: membersRead ms ++ memberTokens m ++ [.endObject] := by
  rw [List.reverse_cons, membersRead]
  cases ms.reverse with
  | nil => simp [Json.tokens, Json.laterMembers, memberTokens]
  | cons l ls =>
    have htokens : (Json.object (l :: (ls ++ [m]))).tokens =
        .beginObject :: (memberTokens l ++ Json.laterMembers (ls ++ [m])) := by
      simp [Json.tokens, memberTokens]
    rw [List.cons_append, htokens, laterMembers_concat]
    rfl

theorem elementsRead_cons (v : Json) (es : List Json) :
    elementsRead (v :: es) = elementsRead es ++ v.tokens ++ [.comma] := by simp [elementsRead]

theorem membersRead_cons (m : Bytes × Json) (ms : List (Bytes × Json)) :
    membersRead (m :: ms) = membersRead ms ++ memberTokens m ++ [.comma] := by simp [membersRead]

section
variable {limit : ℕ} {stack : List Frame} {ts : List Token} {state : List Frame × Expecting}

/-- A value that ends where one was expected. -/
theorem hasRead_place (h : Open stack ts) (v : Json) : HasRead (place v stack) (ts ++ v.tokens) := by
  cases h with
  | nil => exact List.nil_append _
  | array es h => exact .array v es h
  | object ms key h =>
    have hfilled := Filled.object (key, v) ms key h
    simpa [HasRead, place, memberTokens] using hfilled

theorem hasRead_beginValue (h : Open stack ts) {token : Token}
    (hstep : beginValue limit stack token = some state) : HasRead state (ts ++ [token]) := by
  cases token with
  | null => exact Option.some.inj hstep ▸ hasRead_place h .null
  | bool b => exact Option.some.inj hstep ▸ hasRead_place h (.bool b)
  | number raw => exact Option.some.inj hstep ▸ hasRead_place h (.number raw)
  | string raw => exact Option.some.inj hstep ▸ hasRead_place h (.string raw)
  | beginArray =>
    simp only [beginValue, openContainer] at hstep
    split_ifs at hstep
    cases hstep
    exact ⟨.array [] h, stack, rfl⟩
  | beginObject =>
    simp only [beginValue, openContainer] at hstep
    split_ifs at hstep
    cases hstep
    exact ⟨stack, [], ts, h, rfl, rfl⟩
  | endObject => cases hstep
  | endArray => cases hstep
  | colon => cases hstep
  | comma => cases hstep

theorem hasRead_close (h : Filled stack ts) {token : Token}
    (hstep : closeContainer stack token = some state) : HasRead state (ts ++ [token]) := by
  cases h with
  | @array stack ts v es h =>
    cases token with
    | endArray =>
      have hplace := hasRead_place h (.array (v :: es).reverse)
      rw [tokens_array] at hplace
      cases hstep
      simpa using hplace
    | _ => cases hstep
  | @object stack ts m ms key h =>
    cases token with
    | endObject =>
      have hplace := hasRead_place h (.object (m :: ms).reverse)
      rw [tokens_object] at hplace
      cases hstep
      simpa using hplace
    | _ => cases hstep

/-- Reading one token. -/
theorem parseToken_hasRead {expecting : Expecting} (h : HasRead (stack, expecting) ts) {token : Token}
    (hstep : parseToken limit (stack, expecting) token = some state) :
    HasRead state (ts ++ [token]) := by
  cases expecting with
  | value => exact hasRead_beginValue h hstep
  | element =>
    simp only [parseToken] at hstep
    split_ifs at hstep with hend
    · obtain ⟨hopen, rest, rfl⟩ := h
      subst hend
      cases hopen with
      | array es h =>
        cases hstep
        simpa [elementsRead, Json.tokens] using hasRead_place h (.array [])
    · exact hasRead_beginValue h.1 hstep
  | member =>
    obtain ⟨rest, key, ts', h, rfl, rfl⟩ := h
    simp only [parseToken] at hstep
    split_ifs at hstep with hend
    · subst hend
      cases hstep
      simpa [Json.tokens] using hasRead_place h (.object [])
    · cases token with
      | string raw =>
        cases hstep
        exact ⟨[], rest, raw, ts', h, rfl, by simp [membersRead]⟩
      | _ => cases hstep
  | key =>
    obtain ⟨ms, rest, key, ts', h, rfl, rfl⟩ := h
    cases token with
    | string raw =>
      cases hstep
      exact ⟨ms, rest, raw, ts', h, rfl, rfl⟩
    | _ => cases hstep
  | colon =>
    obtain ⟨ms, rest, key, ts', h, rfl, rfl⟩ := h
    simp only [parseToken] at hstep
    split_ifs at hstep with hcolon
    subst hcolon
    cases hstep
    simpa [HasRead] using Open.object ms key h
  | next =>
    simp only [parseToken] at hstep
    split_ifs at hstep with hcomma
    · subst hcomma
      cases h with
      | array v es h =>
        cases hstep
        simpa [HasRead, elementsRead_cons] using Open.array (v :: es) h
      | @object rest ts' m ms key h =>
        cases hstep
        exact ⟨m :: ms, rest, key, ts', h, rfl, by simp [membersRead_cons]⟩
    · exact hasRead_close h hstep
  | done v => cases hstep

theorem parseTokens_hasRead {later : List Token} {state' : List Frame × Expecting}
    (h : HasRead state ts) (hrun : later.foldlM (parseToken limit) state = some state') :
    HasRead state' (ts ++ later) := by
  induction later generalizing state ts with
  | nil =>
    obtain rfl : state = state' := Option.some.inj hrun
    rwa [List.append_nil]
  | cons token later ih =>
    rw [foldlM_cons] at hrun
    obtain ⟨next, hnext, hrun⟩ := Option.bind_eq_some_iff.1 hrun
    have hread := ih (parseToken_hasRead h hnext) hrun
    rwa [List.append_assoc] at hread

end

theorem parse_isText {limit : ℕ} {text : Bytes} {v : Json} (h : parse limit text = some v) :
    IsText v text := by
  refine ⟨(parse_fits h).1, ?_⟩
  unfold parse at h
  obtain ⟨ts, hts, h⟩ := Option.bind_eq_some_iff.1 h
  obtain ⟨⟨stack, expecting⟩, hfinal, h⟩ := Option.bind_eq_some_iff.1 h
  have hstart : HasRead ([], .value) [] := Open.nil
  have hread := parseTokens_hasRead hstart hfinal
  rw [List.nil_append] at hread
  split at h
  next w hw =>
    obtain rfl := Option.some.inj h
    obtain rfl : expecting = .done w := hw
    obtain rfl : ts = w.tokens := hread
    exact tokens_reads hts
  next => cases h

/-- The reader accepts the texts of a value that nests no deeper than it lets it. -/
theorem parse_eq_some_iff {limit : ℕ} {text : Bytes} {v : Json} :
    parse limit text = some v ↔ IsText v text ∧ v.depth ≤ limit := by
  constructor
  · intro h
    exact ⟨parse_isText h, (parse_fits h).2⟩
  · rintro ⟨htext, hdepth⟩
    have hrun := @parse_tokens limit v [] [] .value (.inl rfl) (by simpa using hdepth)
    rw [List.append_nil] at hrun
    rw [parse, htext.tokens]
    change (v.tokens.foldlM (parseToken limit) ([], .value)).bind _ = _
    rw [hrun]
    rfl

end BitcoinRpcOperator.JsonText
