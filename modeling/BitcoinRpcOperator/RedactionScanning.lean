import BitcoinRpcOperator.Redaction

/-!
# Where a serialized container ends

Balanced texts: brackets in pairs, quoted texts closed, and no backslash outside them. The
scanner of the redactor passes over such a text and finds the end of a container around it.
-/

namespace BitcoinRpcOperator.Redaction
open Text PythonValues

/-- What may stand between quotes `q`. -/
inductive Quoted (q : Char) : Str → Prop
  | nil : Quoted q []
  | plain {c : Char} {s : Str} : c ≠ q → c ≠ '\\' → Quoted q s → Quoted q (c :: s)
  | escape {c : Char} {s : Str} : Quoted q s → Quoted q ('\\' :: c :: s)

def isQuote (c : Char) : Bool := c == '\'' || c == '"'

/-- A character that changes nothing for the scanner. -/
def isInert (c : Char) : Bool :=
  !isQuote c && c != '\\' && !isOpener c && c != '\x7d' && c != ']'

inductive Balanced : Str → Prop
  | nil : Balanced []
  | inert {c : Char} {s : Str} : isInert c → Balanced s → Balanced (c :: s)
  | quoted {q : Char} {body s : Str} : isQuote q → Quoted q body → Balanced s →
      Balanced (q :: body ++ q :: s)
  | nested {c close : Char} {body s : Str} : closer c = some close → Balanced body → Balanced s →
      Balanced (c :: body ++ close :: s)

theorem Quoted.append {q : Char} {a b : Str} (ha : Quoted q a) (hb : Quoted q b) :
    Quoted q (a ++ b) := by
  induction ha with
  | nil => exact hb
  | plain h₁ h₂ _ ih => exact .plain h₁ h₂ ih
  | escape _ ih => exact .escape ih

theorem Balanced.append {a b : Str} (ha : Balanced a) (hb : Balanced b) : Balanced (a ++ b) := by
  induction ha with
  | nil => exact hb
  | inert h _ ih => exact .inert h ih
  | @quoted q body s hq hbody _ ih =>
    rw [List.append_assoc, List.cons_append]
    exact .quoted hq hbody ih
  | @nested c close body s hc hbody _ _ ih =>
    rw [List.append_assoc, List.cons_append]
    exact .nested hc hbody ih

theorem Balanced.of_inert {s : Str} (h : ∀ c ∈ s, isInert c) : Balanced s := by
  induction s with
  | nil => exact .nil
  | cons c s ih => exact .inert (h c (by simp)) (ih fun d hd => h d (by simp [hd]))

theorem Balanced.enclose {c close : Char} {body : Str} (h : closer c = some close)
    (hbody : Balanced body) : Balanced (c :: body ++ [close]) := .nested h hbody .nil

theorem Balanced.quote {q : Char} {body : Str} (hq : isQuote q) (hbody : Quoted q body) :
    Balanced (q :: body ++ [q]) := .quoted hq hbody .nil

/-- Parts of a list with a separator between them. -/
theorem Balanced.joined {sep : Str} {parts : List Str} (hsep : Balanced sep)
    (hparts : ∀ p ∈ parts, Balanced p) : Balanced (joined sep parts) := by
  induction parts with
  | nil => exact .nil
  | cons p parts ih =>
    have hp : Balanced p := hparts p (by simp)
    have hrest := ih fun q hq => hparts q (by simp [hq])
    cases parts with
    | nil => simpa [PythonValues.joined] using hp
    | cons q parts =>
      have heq : PythonValues.joined sep (p :: q :: parts) =
          p ++ (sep ++ PythonValues.joined sep (q :: parts)) := by
        simp [PythonValues.joined, List.intercalate_cons_cons]
      rw [heq]
      exact hp.append (hsep.append hrest)

theorem joined_cons (sep p : Str) (parts : List Str) : joined sep (p :: parts) =
    p ++ parts.flatMap (sep ++ ·) := by
  induction parts generalizing p with
  | nil => simp [joined]
  | cons q parts ih =>
    have hstep : joined sep (p :: q :: parts) = p ++ sep ++ joined sep (q :: parts) := by
      simp [joined, List.intercalate_cons_cons]
    rw [hstep, ih, List.flatMap_cons]
    simp

/-- Brackets in pairs, other than those between quotes or after a backslash. -/
inductive Bracketed : Str → Prop
  | nil : Bracketed []
  | inert {c : Char} {s : Str} : isInert c → Bracketed s → Bracketed (c :: s)
  | escaped {c : Char} {s : Str} : Bracketed s → Bracketed ('\\' :: c :: s)
  | quoted {q : Char} {body s : Str} : isQuote q → Quoted q body → Bracketed s →
      Bracketed (q :: body ++ q :: s)
  | nested {c close : Char} {body s : Str} : closer c = some close → Bracketed body → Bracketed s →
      Bracketed (c :: body ++ close :: s)

theorem Balanced.bracketed {s : Str} (h : Balanced s) : Bracketed s := by
  induction h with
  | nil => exact .nil
  | inert hc _ ih => exact .inert hc ih
  | quoted hq hbody _ ih => exact .quoted hq hbody ih
  | nested hc _ _ ihbody ih => exact .nested hc ihbody ih

section
variable {stack : List Char}

theorem scanContainer_consumed {c : Char} {quote quote' : Option Char} {escaped escaped' : Bool}
    (h : quotedCharState c quote escaped = (quote', escaped', true)) (rest : Str) :
    scanContainer stack quote escaped (c :: rest) =
      (scanContainer stack quote' escaped' rest).map (· + 1) := by
  rw [scanContainer, h]

/-- Between quotes the scanner looks for the closing one only. -/
theorem scanContainer_quoted {q : Char} {body : Str} (hq : q ≠ '\\') (h : Quoted q body)
    (rest : Str) : scanContainer stack (some q) false (body ++ q :: rest) =
      (scanContainer stack none false rest).map (· + (body.length + 1)) := by
  induction h with
  | nil =>
    have hclose : quotedCharState q (some q) false = (none, false, true) := by
      simp [quotedCharState, hq]
    rw [List.nil_append, scanContainer_consumed hclose]
    rfl
  | @plain c s hne hslash _ ih =>
    have hstay : quotedCharState c (some q) false = (some q, false, true) := by
      simp [quotedCharState, hne, hslash]
    rw [List.cons_append, scanContainer_consumed hstay, ih, Option.map_map]
    rfl
  | @escape c s _ ih =>
    have hslash : quotedCharState '\\' (some q) false = (some q, true, true) := by
      simp [quotedCharState]
    have hescaped : quotedCharState c (some q) true = (some q, false, true) := by
      simp [quotedCharState]
    rw [List.cons_append, List.cons_append, scanContainer_consumed hslash,
      scanContainer_consumed hescaped, ih, Option.map_map, Option.map_map]
    rfl

end

theorem closer_cases {c close : Char} (h : closer c = some close) :
    c = '\x7b' ∧ close = '\x7d' ∨ c = '[' ∧ close = ']' := by
  unfold closer at h
  split_ifs at h with hbrace hbracket
  · exact .inl ⟨by simpa using hbrace, (Option.some.inj h).symm⟩
  · exact .inr ⟨by simpa using hbracket, (Option.some.inj h).symm⟩

section
variable {stack : List Char}

/-- Outside quotes an inert character is passed over. -/
theorem scanContainer_inert {c : Char} (h : isInert c) (rest : Str) :
    scanContainer stack none false (c :: rest) = (scanContainer stack none false rest).map (· + 1) := by
  simp only [isInert, isQuote, isOpener, Bool.and_eq_true, Bool.not_eq_true', bne_iff_ne,
    Bool.or_eq_false_iff, beq_eq_false_iff_ne] at h
  obtain ⟨⟨⟨⟨⟨hsingle, hdouble⟩, hslash⟩, hbrace, hbracket⟩, hclose⟩, hclose'⟩ := h
  have hstate : quotedCharState c none false = (none, false, false) := by
    simp [quotedCharState, hslash, hsingle, hdouble]
  have hcloser : closer c = none := by simp [closer, hbrace, hbracket]
  have hnot : (c == '\x7d' || c == ']') = false := by simp [hclose, hclose']
  rw [scanContainer, hstate]
  simp only [hcloser, hnot, Bool.false_eq_true, if_false]

theorem scanContainer_opened {c close : Char} (h : closer c = some close) (rest : Str) :
    scanContainer stack none false (c :: rest) =
      (scanContainer (close :: stack) none false rest).map (· + 1) := by
  have hstate : quotedCharState c none false = (none, false, false) := by
    rcases closer_cases h with ⟨rfl, -⟩ | ⟨rfl, -⟩ <;> decide
  rw [scanContainer, hstate]
  simp only [h]

theorem scanContainer_closed {c close : Char} (h : closer c = some close) (rest : Str) :
    scanContainer (close :: stack) none false (close :: rest) =
      if stack.isEmpty then some 1 else (scanContainer stack none false rest).map (· + 1) := by
  have hstate : quotedCharState close none false = (none, false, false) := by
    rcases closer_cases h with ⟨-, rfl⟩ | ⟨-, rfl⟩ <;> decide
  have hcloser : closer close = none := by
    rcases closer_cases h with ⟨-, rfl⟩ | ⟨-, rfl⟩ <;> decide
  have hclose : (close == '\x7d' || close == ']') = true := by
    rcases closer_cases h with ⟨-, rfl⟩ | ⟨-, rfl⟩ <;> decide
  rw [scanContainer, hstate]
  simp only [hcloser, hclose, if_true, bne_self_eq_false, Bool.false_eq_true, if_false]

theorem slash_ne_quote {q : Char} (h : isQuote q) : q ≠ '\\' := by
  rintro rfl
  exact absurd h (by decide)

/-- A text with its brackets in pairs is passed over inside a container. -/
theorem scanContainer_bracketed {s : Str} (h : Bracketed s) : ∀ {stack : List Char}, stack ≠ [] →
    ∀ rest, scanContainer stack none false (s ++ rest) =
      (scanContainer stack none false rest).map (· + s.length) := by
  induction h with
  | nil =>
    intro stack _ rest
    simp
  | @inert c s hc _ ih =>
    intro stack hstack rest
    rw [List.cons_append, scanContainer_inert hc, ih hstack, Option.map_map]
    rfl
  | @escaped c s _ ih =>
    intro stack hstack rest
    have hslash : quotedCharState '\\' none false = (none, true, true) := by
      simp [quotedCharState]
    have hescaped : quotedCharState c none true = (none, false, true) := by
      simp [quotedCharState]
    rw [List.cons_append, List.cons_append, scanContainer_consumed hslash,
      scanContainer_consumed hescaped, ih hstack, Option.map_map, Option.map_map]
    rfl
  | @quoted q body s hq hbody _ ih =>
    intro stack hstack rest
    have hopen : quotedCharState q none false = (some q, false, true) := by
      have hor : (q == '\'' || q == '"') = true := hq
      simp [quotedCharState, slash_ne_quote hq, hor]
    rw [List.append_assoc, List.cons_append, List.cons_append, scanContainer_consumed hopen,
      scanContainer_quoted (slash_ne_quote hq) hbody, ih hstack, Option.map_map, Option.map_map]
    congr 1
    funext n
    simp only [Function.comp_apply, List.length_append, List.length_cons]
    omega
  | @nested c close body s hc _ _ ihbody ih =>
    intro stack hstack rest
    have hclosed : (scanContainer (close :: stack) none false (close :: (s ++ rest))) =
        (scanContainer stack none false (s ++ rest)).map (· + 1) := by
      rw [scanContainer_closed hc]
      simp [hstack]
    rw [List.append_assoc, List.cons_append, List.cons_append, scanContainer_opened hc,
      ihbody (by simp), hclosed, ih hstack, Option.map_map, Option.map_map, Option.map_map]
    congr 1
    funext n
    simp only [Function.comp_apply, List.length_append, List.length_cons]
    omega

end

/-- The end of a container around such a text is found. -/
theorem containerEnd_bracketed {c close : Char} {body : Str} (hc : closer c = some close)
    (hbody : Bracketed body) (rest : Str) :
    containerEnd c (body ++ close :: rest) = some (body.length + 1) := by
  rw [containerEnd, hc, Option.toList_some, scanContainer_bracketed hbody (by simp),
    scanContainer_closed hc]
  simp [Nat.add_comm]

theorem containerEnd_balanced {c close : Char} {body : Str} (hc : closer c = some close)
    (hbody : Balanced body) (rest : Str) :
    containerEnd c (body ++ close :: rest) = some (body.length + 1) :=
  containerEnd_bracketed hc hbody.bracketed rest

/-- A container after a text without brackets is found as it stands, when the text does not
end in a quote. -/
theorem nextRound_container {before : Option Char} {front body rest : Str} {c close : Char}
    (hfront : ∀ a ∈ front, isOpener a = false)
    (hquote : ∀ q, front.getLast?.or before = some q → isQuote q = false)
    (hc : closer c = some close) (hbody : Balanced body)
    (hlooks : looksSerializedStart c (body ++ close :: rest)) :
    nextRound before (front ++ (c :: body ++ close :: rest)) =
      .found front (c :: body ++ [close]) rest := by
  have hopener : isOpener c := by rcases closer_cases hc with ⟨rfl, -⟩ | ⟨rfl, -⟩ <;> decide
  have htake : (front ++ c :: (body ++ close :: rest)).takeWhile (!isOpener ·) = front := by
    rw [List.takeWhile_append_of_pos (fun a ha => by simp [hfront a ha]), List.takeWhile_cons]
    simp [hopener]
  have hdrop : (front ++ c :: (body ++ close :: rest)).dropWhile (!isOpener ·) =
      c :: (body ++ close :: rest) := by
    rw [List.dropWhile_append_of_pos (fun a ha => by simp [hfront a ha]), List.dropWhile_cons]
    simp [hopener]
  have hnone : surroundingQuote (front.getLast?.or before) rest = none := by
    unfold surroundingQuote
    split
    · next q a more hq =>
      have hnot : (q == '\'' || q == '"') = false := hquote q hq
      simp [hnot]
    · rfl
  have htaken : (body ++ close :: rest).take (body.length + 1) = body ++ [close] := by
    rw [List.take_append]
    simp
  have hdropped : (body ++ close :: rest).drop (body.length + 1) = rest := by
    rw [List.drop_append]
    simp
  rw [List.cons_append, nextRound]
  simp only [htake, hdrop]
  rw [if_pos hlooks, containerEnd_balanced hc hbody]
  simp only [htaken, hdropped, hnone, Option.toList_none, List.nil_append, List.length_nil,
    List.drop_zero, List.append_nil, List.cons_append]

theorem nextRound_plain {before : Option Char} {value : Str} (h : ∀ a ∈ value, isOpener a = false) :
    nextRound before value = .finished value := by
  rcases nextRound_cases before value with ⟨-, hround⟩ | ⟨plain, c, rest, rfl, -, hopener, -⟩
  · exact hround
  · have hnot := h c (List.mem_append_right _ (List.mem_cons_self ..))
    rw [hopener] at hnot
    cases hnot

/-- A text without brackets goes to the substitutions as it is. -/
theorem redactRuntimeValue_plain {lib : Library} {value : Str} (h : ∀ c ∈ value, isOpener c = false) :
    redactRuntimeValue lib value = .ok (redactText lib value) := by
  rw [redactRuntimeValue_eq, redactFragments, nextRound_plain h]
  rfl

end BitcoinRpcOperator.Redaction
