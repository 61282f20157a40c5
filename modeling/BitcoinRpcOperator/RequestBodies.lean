import BitcoinRpcOperator.JsonGrammar
import BitcoinRpcOperator.MarshalledText

/-!
# Which bodies are requests

The proxy reads a body without the white space around it, and forwards it with that white
space. What it takes for white space is what Unicode does; what a JSON text may have around
it is less.
-/

namespace BitcoinRpcOperator.RpcRequests
open Text JsonText

/-- A sequence of units of one, two and three bytes. -/
inductive Spaces (one : UInt8 → Bool) (two : UInt8 → UInt8 → Bool)
    (three : UInt8 → UInt8 → UInt8 → Bool) : Bytes → Prop
  | nil : Spaces one two three []
  | one {a : UInt8} {s : Bytes} : one a → Spaces one two three s → Spaces one two three (a :: s)
  | two {a b : UInt8} {s : Bytes} : two a b → Spaces one two three s →
      Spaces one two three (a :: b :: s)
  | three {a b c : UInt8} {s : Bytes} : three a b c → Spaces one two three s →
      Spaces one two three (a :: b :: c :: s)

/-- The first byte tells how long a unit is. -/
structure Apart (one : UInt8 → Bool) (two : UInt8 → UInt8 → Bool)
    (three : UInt8 → UInt8 → UInt8 → Bool) : Prop where
  of_two {a b : UInt8} : two a b → one a = false
  of_three {a b c : UInt8} : three a b c → one a = false ∧ two a b = false

section
variable {one : UInt8 → Bool} {two : UInt8 → UInt8 → Bool} {three : UInt8 → UInt8 → UInt8 → Bool}
  {s t : Bytes}

theorem Spaces.append (hs : Spaces one two three s) (ht : Spaces one two three t) :
    Spaces one two three (s ++ t) := by
  induction hs with
  | nil => exact ht
  | one h _ ih => exact .one h ih
  | two h _ ih => exact .two h ih
  | three h _ ih => exact .three h ih

/-- From the back, the bytes of a unit come in reverse. -/
theorem Spaces.reverse (h : Spaces one two three s) :
    Spaces one (fun a b => two b a) (fun a b c => three c b a) s.reverse := by
  induction h with
  | nil => exact .nil
  | @one a s h _ ih =>
    rw [List.reverse_cons]
    exact ih.append (.one h .nil)
  | @two a b s h _ ih =>
    have hsplit : (a :: b :: s).reverse = s.reverse ++ [b, a] := by simp
    rw [hsplit]
    exact ih.append (.two h .nil)
  | @three a b c s h _ ih =>
    have hsplit : (a :: b :: c :: s).reverse = s.reverse ++ [c, b, a] := by simp
    rw [hsplit]
    exact ih.append (.three h .nil)

theorem dropSpaces_one {a : UInt8} (h : one a) :
    dropSpaces one two three (a :: s) = dropSpaces one two three s := by
  cases s with
  | nil => simp [dropSpaces, h]
  | cons b s => cases s <;> simp [dropSpaces, h]

theorem dropSpaces_two {a b : UInt8} (hone : one a = false) (h : two a b) :
    dropSpaces one two three (a :: b :: s) = dropSpaces one two three s := by
  cases s with
  | nil => simp [dropSpaces, hone, h]
  | cons c rest => simp [dropSpaces, hone, h]

theorem dropSpaces_three {a b c : UInt8} (hone : one a = false) (htwo : two a b = false)
    (h : three a b c) : dropSpaces one two three (a :: b :: c :: s) = dropSpaces one two three s := by
  simp [dropSpaces, hone, htwo, h]

theorem dropSpaces_append (hapart : Apart one two three) (hs : Spaces one two three s) (t : Bytes) :
    dropSpaces one two three (s ++ t) = dropSpaces one two three t := by
  induction hs with
  | nil => rfl
  | one h _ ih => exact (dropSpaces_one h).trans ih
  | two h _ ih => exact (dropSpaces_two (hapart.of_two h) h).trans ih
  | three h _ ih => exact (dropSpaces_three (hapart.of_three h).1 (hapart.of_three h).2 h).trans ih

/-- What is dropped from the front is white space. -/
theorem dropSpaces_split (s : Bytes) :
    ∃ front, s = front ++ dropSpaces one two three s ∧ Spaces one two three front := by
  fun_induction dropSpaces one two three s with
  | case1 a b c rest h ih =>
    obtain ⟨front, hsplit, hfront⟩ := ih
    exact ⟨a :: front, congrArg (a :: ·) hsplit, .one h hfront⟩
  | case2 a b c rest hone h ih =>
    obtain ⟨front, hsplit, hfront⟩ := ih
    exact ⟨a :: b :: front, congrArg (a :: b :: ·) hsplit, .two h hfront⟩
  | case3 a b c rest hone htwo h ih =>
    obtain ⟨front, hsplit, hfront⟩ := ih
    exact ⟨a :: b :: c :: front, congrArg (a :: b :: c :: ·) hsplit, .three h hfront⟩
  | case4 a b c rest hone htwo hthree => exact ⟨[], rfl, .nil⟩
  | case5 a b h ih =>
    obtain ⟨front, hsplit, hfront⟩ := ih
    exact ⟨a :: front, congrArg (a :: ·) hsplit, .one h hfront⟩
  | case6 a b hone h => exact ⟨[a, b], rfl, .two h .nil⟩
  | case7 a b hone h => exact ⟨[], rfl, .nil⟩
  | case8 a h => exact ⟨[a], rfl, .one h .nil⟩
  | case9 a h => exact ⟨[], rfl, .nil⟩
  | case10 => exact ⟨[], rfl, .nil⟩

/-- Nothing is dropped in front of a byte that begins no white space. -/
theorem dropSpaces_stop {a : UInt8} (hone : one a = false) (htwo : ∀ b, two a b = false)
    (hthree : ∀ b c, three a b c = false) : dropSpaces one two three (a :: s) = a :: s := by
  cases s with
  | nil => simp [dropSpaces, hone]
  | cons b s => cases s <;> simp [dropSpaces, hone, htwo, hthree]

end

def WhiteSpace : Bytes → Prop := Spaces isSpace1 isSpace2 isSpace3

theorem isSpace1_lt {a : UInt8} (h : isSpace1 a) : a.toNat < 0x80 := by
  simp only [isSpace1, Bool.and_eq_true, decide_eq_true_eq] at h
  exact h.1

theorem isTail_bounds {b : UInt8} (h : isTail b) : 0x80 ≤ b.toNat ∧ b.toNat ≤ 0xBF := by
  simpa [isTail, UInt8_le_iff] using h

theorem isSpace2_bounds {a b : UInt8} (h : isSpace2 a b) :
    0xC2 ≤ a.toNat ∧ a.toNat ≤ 0xDF ∧ 0x80 ≤ b.toNat := by
  obtain ⟨r, hr, -⟩ := (Option.any_eq_true _ _).1 h
  have htail := isTail_bounds (rune2_tail hr)
  unfold rune2 at hr
  split_ifs at hr with hcond
  simp only [Bool.and_eq_true, decide_eq_true_eq, UInt8_le_iff] at hcond
  exact ⟨hcond.1.1, hcond.1.2, htail.1⟩

theorem isSpace3_bounds {a b c : UInt8} (h : isSpace3 a b c) :
    0xE0 ≤ a.toNat ∧ (0x80 ≤ b.toNat ∧ b.toNat ≤ 0xBF) ∧ 0x80 ≤ c.toNat := by
  obtain ⟨r, hr, -⟩ := (Option.any_eq_true _ _).1 h
  have htails := rune3_tail hr
  have hlead : 0xE0 ≤ a.toNat := by
    simp only [rune3, Option.ite_none_right_eq_some, Bool.and_eq_true, decide_eq_true_eq,
      UInt8_le_iff] at hr
    exact hr.1.1.1.1
  exact ⟨hlead, isTail_bounds htails.1, (isTail_bounds htails.2).1⟩

theorem not_isSpace1 {a : UInt8} (h : 0x80 ≤ a.toNat) : isSpace1 a = false := by
  by_contra hspace
  have hlt := isSpace1_lt (by simpa using hspace)
  omega

theorem not_isSpace2 {a b : UInt8} (h : a.toNat < 0xC2 ∨ 0xDF < a.toNat ∨ b.toNat < 0x80) :
    isSpace2 a b = false := by
  by_contra hspace
  have hbounds := isSpace2_bounds (by simpa using hspace)
  omega

theorem not_isSpace3 {a b c : UInt8} (h : a.toNat < 0xE0 ∨ c.toNat < 0x80) :
    isSpace3 a b c = false := by
  by_contra hspace
  have hbounds := isSpace3_bounds (by simpa using hspace)
  omega

theorem apart_front : Apart isSpace1 isSpace2 isSpace3 := by
  constructor
  · intro a b h
    have hbounds := isSpace2_bounds h
    exact not_isSpace1 (by omega)
  · intro a b c h
    have hbounds := isSpace3_bounds h
    exact ⟨not_isSpace1 (by omega), not_isSpace2 (by omega)⟩

theorem apart_back :
    Apart isSpace1 (fun a b => isSpace2 b a) (fun a b c => isSpace3 c b a) := by
  constructor
  · intro a b h
    have hbounds := isSpace2_bounds h
    exact not_isSpace1 (by omega)
  · intro a b c h
    have hbounds := isSpace3_bounds h
    exact ⟨not_isSpace1 (by omega), not_isSpace2 (by omega)⟩

/-- An ASCII character that is not white space. -/
structure Solid (a : UInt8) : Prop where
  ascii : a.toNat < 0x80
  visible : isSpace1 a = false

theorem Solid.front {a : UInt8} (h : Solid a) (s : Bytes) :
    dropSpaces isSpace1 isSpace2 isSpace3 (a :: s) = a :: s := by
  have hascii := h.ascii
  exact dropSpaces_stop h.visible (fun b => not_isSpace2 (by omega))
    (fun b c => not_isSpace3 (by omega))

theorem Solid.back {a : UInt8} (h : Solid a) (s : Bytes) :
    dropSpaces isSpace1 (fun a b => isSpace2 b a) (fun a b c => isSpace3 c b a) (a :: s) = a :: s := by
  have hascii := h.ascii
  exact dropSpaces_stop h.visible (fun b => not_isSpace2 (by omega))
    (fun b c => not_isSpace3 (by omega))

/-- What is trimmed is white space. -/
theorem trimSpace_split (bs : Bytes) :
    ∃ front back, bs = front ++ trimSpace bs ++ back ∧ WhiteSpace front ∧ WhiteSpace back := by
  obtain ⟨front, hsplit, hfront⟩ := dropSpaces_split bs
  obtain ⟨back, hrest, hback⟩ := dropSpaces_split (dropSpaces isSpace1 isSpace2 isSpace3 bs).reverse
  refine ⟨front, back.reverse, ?_, hfront, hback.reverse⟩
  have hkept : dropSpaces isSpace1 isSpace2 isSpace3 bs = trimSpace bs ++ back.reverse := by
    have hreversed := congrArg List.reverse hrest
    rwa [List.reverse_reverse, List.reverse_append] at hreversed
  rw [List.append_assoc, ← hkept]
  exact hsplit

/-- Nothing else is trimmed. -/
theorem trimSpace_pad {front back : Bytes} (hfront : WhiteSpace front) (hback : WhiteSpace back)
    {first last : UInt8} (hfirst : Solid first) (hlast : Solid last) (mid : Bytes) :
    trimSpace (front ++ (first :: mid ++ [last]) ++ back) = first :: mid ++ [last] := by
  have hdrop : dropSpaces isSpace1 isSpace2 isSpace3 (front ++ (first :: mid ++ [last]) ++ back) =
      first :: mid ++ [last] ++ back := by
    rw [List.append_assoc, dropSpaces_append apart_front hfront]
    exact hfirst.front _
  have hreverse : (first :: mid ++ [last] ++ back).reverse =
      back.reverse ++ last :: (first :: mid).reverse := by simp
  rw [trimSpace, hdrop, hreverse, dropSpaces_append apart_back hback.reverse, hlast.back]
  simp

/-- The white space around a text is determined. -/
theorem pad_unique {front front' back back' : Bytes} (hfront : WhiteSpace front)
    (hfront' : WhiteSpace front') (hback : WhiteSpace back) (hback' : WhiteSpace back')
    {first first' last last' : UInt8} (hfirst : Solid first) (hfirst' : Solid first')
    (hlast : Solid last) (hlast' : Solid last') {mid mid' : Bytes}
    (h : front ++ (first :: mid ++ [last]) ++ back = front' ++ (first' :: mid' ++ [last']) ++ back') :
    front = front' ∧ back = back' := by
  have hcore : first :: mid ++ [last] = first' :: mid' ++ [last'] := by
    rw [← trimSpace_pad hfront hback hfirst hlast, h, trimSpace_pad hfront' hback' hfirst' hlast']
  have hrest : first :: mid ++ [last] ++ back = first' :: mid' ++ [last'] ++ back' := by
    have hdrop := congrArg (dropSpaces isSpace1 isSpace2 isSpace3) h
    rw [List.append_assoc, List.append_assoc front', dropSpaces_append apart_front hfront,
      dropSpaces_append apart_front hfront'] at hdrop
    exact ((hfirst.front _).symm.trans hdrop).trans (hfirst'.front _)
  rw [hcore] at hrest
  have hsame := List.append_cancel_left hrest
  rw [hcore, hsame] at h
  exact ⟨List.append_cancel_right (List.append_cancel_right h), hsame⟩

theorem whiteSpace_of_blanks {ws : Bytes} (h : Blanks ws) : WhiteSpace ws := by
  have hall : ∀ b ∈ [byte ' ', byte '\t', byte '\n', byte '\r'], isSpace1 b := by decide
  induction ws with
  | nil => exact .nil
  | cons b ws ih =>
    exact .one (hall b (isBlank_cases (h b (List.mem_cons_self ..))))
      (ih fun c hc => h c (List.mem_cons_of_mem _ hc))

def isContainer : Json → Bool
  | .object _ | .array _ => true
  | _ => false

/-- The bytes are a JSON text of an object or an array, nested no deeper than the decoder lets
it. -/
structure IsRequest (v : Json) (text : Bytes) : Prop where
  text : IsText v text
  depth : v.depth ≤ maxNestingDepth
  container : isContainer v

/-- What an envelope of a request holds. -/
structure Holds (env : Envelope) (v : Json) (body : Bytes) : Prop where
  raw : env.raw = body
  batch : ∀ elements, v = .array elements →
    env.isBatch = true ∧ env.calls = elements.map parseElement
  single : (∀ elements, v ≠ .array elements) → env.isBatch = false ∧ env.calls.length = 1

/-- `Parse` accepts the body if it is a request and not otherwise, and reads what is in it. -/
structure ParsesExactly (body : Bytes) : Prop where
  accepts : (parse body).isSome ↔ ∃ v, IsRequest v body
  holds : ∀ v env, IsRequest v body → parse body = some env → Holds env v body

/-- Wherever the body is a request with white space around it, that is white space of JSON. -/
def PlainlyPadded (body : Bytes) : Prop :=
  ∀ front text back v, body = front ++ text ++ back → WhiteSpace front → WhiteSpace back →
    IsRequest v text → Blanks front ∧ Blanks back

section
variable {v : Json} {text front back : Bytes}

theorem parse_isRequest (h : IsRequest v text) : JsonText.parse maxNestingDepth text = some v :=
  parse_eq_some_iff.2 ⟨h.text, h.depth⟩

theorem IsRequest.pad (h : IsRequest v text) (hfront : Blanks front) (hback : Blanks back) :
    IsRequest v (front ++ text ++ back) :=
  ⟨⟨h.text.lexemes, (h.text.spelled.behind hfront).before hback⟩, h.depth, h.container⟩

/-- The tokens of an object or an array stand between two that open and close it. -/
theorem tokens_container (h : isContainer v) : ∃ first mid last, v.tokens = first :: (mid ++ [last]) ∧
    (first = .beginObject ∨ first = .beginArray) ∧ (last = .endObject ∨ last = .endArray) := by
  cases v with
  | array es =>
    obtain ⟨es, rfl⟩ : ∃ rs : List Json, es = rs.reverse := ⟨es.reverse, by simp⟩
    cases es with
    | nil => exact ⟨_, [], _, rfl, .inr rfl, .inr rfl⟩
    | cons v es =>
      exact ⟨_, elementsRead es ++ v.tokens, _, by rw [tokens_array]; rfl, .inr rfl, .inr rfl⟩
  | object ms =>
    obtain ⟨ms, rfl⟩ : ∃ rs : List (Bytes × Json), ms = rs.reverse := ⟨ms.reverse, by simp⟩
    cases ms with
    | nil => exact ⟨_, [], _, rfl, .inl rfl, .inl rfl⟩
    | cons m ms =>
      exact ⟨_, membersRead ms ++ memberTokens m, _, by rw [tokens_object]; rfl, .inl rfl, .inl rfl⟩
  | null => cases h
  | bool b => cases h
  | number raw => cases h
  | string raw => cases h

/-- A request without the white space around it. -/
theorem IsRequest.core (h : IsRequest v text) : ∃ front first mid last back,
    text = front ++ (first :: mid ++ [last]) ++ back ∧ Blanks front ∧ Blanks back ∧
      Solid first ∧ Solid last ∧ IsRequest v (first :: mid ++ [last]) := by
  have hsolid : ∀ b ∈ [byte '\x7b', byte '[', byte '\x7d', byte ']'], b.toNat < 0x80 ∧ isSpace1 b = false := by
    decide
  obtain ⟨first, mid, last, htokens, hfirst, hlast⟩ := tokens_container h.container
  obtain ⟨a, ha, hsolidFirst⟩ : ∃ a, first.lexeme = [a] ∧ Solid a := by
    rcases hfirst with rfl | rfl
    · exact ⟨_, rfl, (hsolid _ (by simp)).1, (hsolid _ (by simp)).2⟩
    · exact ⟨_, rfl, (hsolid _ (by simp)).1, (hsolid _ (by simp)).2⟩
  obtain ⟨b, hb, hsolidLast⟩ : ∃ b, last.lexeme = [b] ∧ Solid b := by
    rcases hlast with rfl | rfl
    · exact ⟨_, rfl, (hsolid _ (by simp)).1, (hsolid _ (by simp)).2⟩
    · exact ⟨_, rfl, (hsolid _ (by simp)).1, (hsolid _ (by simp)).2⟩
  have hspelled := h.text.spelled
  rw [htokens] at hspelled
  cases hspelled with
  | @cons ws rest _ _ hws hrest =>
    obtain ⟨inner, back, rfl, hinner, hback⟩ := hrest.snoc
    have hcore : Spelled v.tokens (a :: inner ++ [b]) := by
      have hnext : Spelled (first :: (mid ++ [last])) (first.lexeme ++ (inner ++ last.lexeme)) :=
        hinner.concat.next
      rw [ha, hb] at hnext
      rw [htokens]
      exact hnext
    refine ⟨ws, a, inner, b, back, ?_, hws, hback, hsolidFirst, hsolidLast, ⟨h.text.lexemes, hcore⟩,
      h.depth, h.container⟩
    rw [ha, hb]
    simp

/-- White space of any kind around a request is trimmed, with that of the request itself. -/
theorem bodyValue_pad (h : IsRequest v text) (hfront : WhiteSpace front) (hback : WhiteSpace back) :
    bodyValue (front ++ text ++ back) = some v := by
  obtain ⟨ws, first, mid, last, ws', rfl, hws, hws', hfirst, hlast, hcore⟩ := h.core
  have hsplit : front ++ (ws ++ (first :: mid ++ [last]) ++ ws') ++ back =
      (front ++ ws) ++ (first :: mid ++ [last]) ++ (ws' ++ back) := by simp
  have htrim := trimSpace_pad (hfront.append (whiteSpace_of_blanks hws))
    ((whiteSpace_of_blanks hws').append hback) hfirst hlast mid
  rw [bodyValue, hsplit, htrim]
  exact parse_isRequest hcore

theorem bodyValue_isRequest (h : IsRequest v text) : bodyValue text = some v := by
  have hpad : bodyValue ([] ++ text ++ []) = some v := bodyValue_pad h .nil .nil
  rwa [List.nil_append, List.append_nil] at hpad

/-- Only white space of JSON can stand around a request that is one with it. -/
theorem blanks_of_isRequest {w : Json} (hw : IsRequest w (front ++ text ++ back))
    (h : IsRequest v text) (hfront : WhiteSpace front) (hback : WhiteSpace back) :
    Blanks front ∧ Blanks back := by
  obtain ⟨ws, first, mid, last, ws', rfl, hws, hws', hfirst, hlast, -⟩ := h.core
  obtain ⟨all, first', mid', last', all', hall, hblank, hblank', hfirst', hlast', -⟩ := hw.core
  have hsplit : front ++ (ws ++ (first :: mid ++ [last]) ++ ws') ++ back =
      (front ++ ws) ++ (first :: mid ++ [last]) ++ (ws' ++ back) := by simp
  rw [hsplit] at hall
  obtain ⟨rfl, rfl⟩ := pad_unique (hfront.append (whiteSpace_of_blanks hws))
    (whiteSpace_of_blanks hblank) ((whiteSpace_of_blanks hws').append hback)
    (whiteSpace_of_blanks hblank') hfirst hfirst' hlast hlast' hall
  exact ⟨fun b hb => hblank b (List.mem_append_left _ hb),
    fun b hb => hblank' b (List.mem_append_right _ hb)⟩

end

section
variable {body : Bytes}

/-- What `Parse` makes of the value of a body. -/
theorem parse_of_bodyValue {v : Json} (h : bodyValue body = some v) :
    (parse body).isSome = isContainer v := by
  rw [parse, h]
  cases v <;> rfl

theorem bodyValue_of_parse {env : Envelope} (h : parse body = some env) :
    ∃ v, bodyValue body = some v ∧ Holds env v body := by
  obtain ⟨v, hv, henv⟩ := Option.bind_eq_some_iff.1 h
  refine ⟨v, hv, ?_⟩
  cases v with
  | object ms =>
    cases henv
    exact ⟨rfl, fun _ h => (by cases h), fun _ => ⟨rfl, rfl⟩⟩
  | array es =>
    cases henv
    exact ⟨rfl, fun _ h => (by cases h; exact ⟨rfl, rfl⟩), fun h => absurd rfl (h es)⟩
  | null => cases henv
  | bool b => cases henv
  | number raw => cases henv
  | string raw => cases henv

theorem isSome_parse_iff :
    (parse body).isSome ↔ ∃ v, bodyValue body = some v ∧ isContainer v := by
  constructor
  · intro h
    obtain ⟨env, henv⟩ := Option.isSome_iff_exists.1 h
    obtain ⟨v, hv, -⟩ := bodyValue_of_parse henv
    exact ⟨v, hv, parse_of_bodyValue hv ▸ h⟩
  · rintro ⟨v, hv, hcontainer⟩
    rw [parse_of_bodyValue hv, hcontainer]

/-- An accepted body is a request with white space of some kind around it. -/
theorem isRequest_trimSpace {v : Json} (hv : bodyValue body = some v) (hcontainer : isContainer v) :
    IsRequest v (trimSpace body) := by
  obtain ⟨htext, hdepth⟩ := parse_eq_some_iff.1 hv
  exact ⟨htext, hdepth, hcontainer⟩

theorem parsesExactly_iff (body : Bytes) : ParsesExactly body ↔ PlainlyPadded body := by
  constructor
  · rintro h front text back v rfl hfront hback hrequest
    have haccepted : (parse (front ++ text ++ back)).isSome :=
      isSome_parse_iff.2 ⟨v, bodyValue_pad hrequest hfront hback, hrequest.container⟩
    obtain ⟨w, hw⟩ := h.accepts.1 haccepted
    exact blanks_of_isRequest hw hrequest hfront hback
  · intro h
    constructor
    case accepts =>
      rw [isSome_parse_iff]
      constructor
      · rintro ⟨v, hv, hcontainer⟩
        have hrequest := isRequest_trimSpace hv hcontainer
        obtain ⟨front, back, hsplit, hfront, hback⟩ := trimSpace_split body
        obtain ⟨hblanks, hblanks'⟩ := h front (trimSpace body) back v hsplit hfront hback hrequest
        exact ⟨v, hsplit ▸ hrequest.pad hblanks hblanks'⟩
      · rintro ⟨v, hrequest⟩
        exact ⟨v, bodyValue_isRequest hrequest, hrequest.container⟩
    case holds =>
      intro v env hrequest henv
      obtain ⟨w, hw, hholds⟩ := bodyValue_of_parse henv
      obtain rfl : v = w := Option.some.inj ((bodyValue_isRequest hrequest).symm.trans hw)
      exact hholds

end

/-- A vertical tab and an empty object: accepted, and no JSON text. -/
def tabbed : Bytes := utf8 "\x0b\x7b\x7d".toList

theorem tabbed_accepted :
    (parse tabbed).isSome ∧ (¬ ∃ v, IsRequest v tabbed) ∧ ¬ ParsesExactly tabbed := by
  have haccepted : (parse tabbed).isSome := by decide +kernel
  have hnone : (JsonText.parse maxNestingDepth tabbed).isSome = false := by decide +kernel
  have hrequest : ¬ ∃ v, IsRequest v tabbed := by
    rintro ⟨v, hv⟩
    rw [parse_isRequest hv] at hnone
    cases hnone
  exact ⟨haccepted, hrequest, fun h => hrequest (h.accepts.1 haccepted)⟩

end BitcoinRpcOperator.RpcRequests
