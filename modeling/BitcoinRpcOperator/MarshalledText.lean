import BitcoinRpcOperator.JsonRoundTrip
import BitcoinRpcOperator.RpcRequests

/-!
# Strings under `json.Marshal`

Neither the quoting of a string nor the HTML escaping of a raw message changes what a
string says.
-/

namespace BitcoinRpcOperator.RpcRequests
open Text JsonText

def isHtml (b : UInt8) : Bool := b == byte '<' || b == byte '>' || b == byte '&'

/-- The escape of a byte that stands for `low` in the first 256 code points. -/
def byteEscape (b : UInt8) : Bytes := escapeHtml.escapeByte b

def separatorEscape (c : UInt8) : Bytes :=
  utf8 (if c == 0xA8 then "\\u2028".toList else "\\u2029".toList)

/-- How the escaping goes through a string lexeme. -/
inductive EscapesTo : Bytes → Bytes → Prop
  | nil : EscapesTo [] []
  | kept {b : UInt8} {raw raw' : Bytes} : b ≠ byte '"' → b ≠ byte '\\' → ¬ b < 0x20 →
      EscapesTo raw raw' → EscapesTo (b :: raw) (b :: raw')
  | html {b : UInt8} {raw raw' : Bytes} : isHtml b → EscapesTo raw raw' →
      EscapesTo (b :: raw) (byteEscape b ++ raw')
  | separator {c : UInt8} {raw raw' : Bytes} : c = 0xA8 ∨ c = 0xA9 → EscapesTo raw raw' →
      EscapesTo (0xE2 :: 0x80 :: c :: raw) (separatorEscape c ++ raw')
  | escape {e : UInt8} {raw raw' : Bytes} : isEscape e → EscapesTo raw raw' →
      EscapesTo (byte '\\' :: e :: raw) (byte '\\' :: e :: raw')
  | unicode {h₁ h₂ h₃ h₄ : UInt8} {raw raw' : Bytes} : isHexDigit h₁ → isHexDigit h₂ →
      isHexDigit h₃ → isHexDigit h₄ → EscapesTo raw raw' →
      EscapesTo (byte '\\' :: byte 'u' :: h₁ :: h₂ :: h₃ :: h₄ :: raw)
        (byte '\\' :: byte 'u' :: h₁ :: h₂ :: h₃ :: h₄ :: raw')

def atSeparator : Bytes → Bool
  | a :: b :: c :: _ => a == 0xE2 && b == 0x80 && (c == 0xA8 || c == 0xA9)
  | _ => false

theorem escapeHtml_cons {b : UInt8} {bs : Bytes} (h : atSeparator (b :: bs) = false) :
    escapeHtml (b :: bs) = byteEscape b ++ escapeHtml bs := by
  match bs with
  | [] => simp [escapeHtml, byteEscape]
  | [c] => simp [escapeHtml, byteEscape]
  | c :: d :: bs =>
    have hnot : (b == 0xE2 && c == 0x80 && (d == 0xA8 || d == 0xA9)) = false := h
    rw [escapeHtml, hnot]
    rfl

theorem escapeHtml_separator {c : UInt8} (h : c = 0xA8 ∨ c = 0xA9) (bs : Bytes) :
    escapeHtml (0xE2 :: 0x80 :: c :: bs) = separatorEscape c ++ escapeHtml bs := by
  rcases h with rfl | rfl <;> rfl

theorem byteEscape_of_not_html {b : UInt8} (h : isHtml b = false) : byteEscape b = [b] := by
  have hnot : (b == byte '<' || b == byte '>' || b == byte '&') = false := h
  rw [byteEscape, escapeHtml.escapeByte, hnot]
  rfl

/-- A byte that is neither escaped nor starts a separator. -/
def isInert (b : UInt8) : Bool := b != 0xE2 && !isHtml b

theorem escapeHtml_inert {b : UInt8} (h : isInert b) (bs : Bytes) :
    escapeHtml (b :: bs) = b :: escapeHtml bs := by
  obtain ⟨hlead, hhtml⟩ : b ≠ 0xE2 ∧ isHtml b = false := by simpa [isInert] using h
  have hat : atSeparator (b :: bs) = false := by
    match bs with
    | [] => rfl
    | [_] => rfl
    | _ :: _ :: _ => simp [atSeparator, hlead]
  rw [escapeHtml_cons hat, byteEscape_of_not_html hhtml]
  rfl

theorem isInert_of {p : UInt8 → Bool} (hlead : p 0xE2 = false) (hless : p (byte '<') = false)
    (hgreater : p (byte '>') = false) (hand : p (byte '&') = false) {b : UInt8} (h : p b) :
    isInert b := by
  have hne : ∀ c, p c = false → b ≠ c := by
    rintro c hc rfl
    rw [hc] at h
    cases h
  simp [isInert, isHtml, hne _ hlead, hne _ hless, hne _ hgreater, hne _ hand]

theorem isInert_escape {e : UInt8} (h : isEscape e) : isInert e :=
  isInert_of (by decide) (by decide) (by decide) (by decide) h

theorem isInert_hexDigit {d : UInt8} (h : isHexDigit d) : isInert d :=
  isInert_of (by decide) (by decide) (by decide) (by decide) h

theorem atSeparator_cases {bs : Bytes} (h : atSeparator bs = true) :
    ∃ c rest, (c = 0xA8 ∨ c = 0xA9) ∧ bs = 0xE2 :: 0x80 :: c :: rest := by
  match bs, h with
  | a :: b :: c :: rest, h =>
    obtain ⟨⟨rfl, rfl⟩, hc⟩ : (a = 0xE2 ∧ b = 0x80) ∧ (c = 0xA8 ∨ c = 0xA9) := by
      simpa [atSeparator] using h
    exact ⟨c, rest, hc, rfl⟩

theorem escapesTo_escapeHtml (n : ℕ) {raw : Bytes} (hn : raw.length ≤ n) (h : StringLexeme raw) :
    EscapesTo raw (escapeHtml raw) := by
  induction n generalizing raw with
  | zero =>
    obtain rfl := List.length_eq_zero_iff.1 (Nat.le_zero.1 hn)
    exact .nil
  | succ n ih =>
    have hbackslash : isInert (byte '\\') := by decide
    have hletter : isInert (byte 'u') := by decide
    cases hsep : atSeparator raw with
    | true =>
      obtain ⟨c, rest, hc, rfl⟩ := atSeparator_cases hsep
      have hplain : c ≠ byte '\\' := by rcases hc with rfl | rfl <;> decide
      rw [escapeHtml_separator hc]
      simp only [List.length_cons] at hn
      exact .separator hc (ih (by omega)
        (StringLexeme.tail (StringLexeme.tail (StringLexeme.tail h (by decide)) (by decide)) hplain))
    | false =>
      cases h with
      | nil => exact .nil
      | plain hdouble hslash hlow h =>
        rename_i b raw
        rw [List.length_cons] at hn
        rw [escapeHtml_cons hsep]
        cases hhtml : isHtml b with
        | true => exact .html hhtml (ih (by omega) h)
        | false =>
          rw [byteEscape_of_not_html hhtml]
          exact .kept hdouble hslash hlow (ih (by omega) h)
      | escape he h =>
        simp only [List.length_cons] at hn
        rw [escapeHtml_inert hbackslash, escapeHtml_inert (isInert_escape he)]
        exact .escape he (ih (by omega) h)
      | unicode h₁ h₂ h₃ h₄ h =>
        simp only [List.length_cons] at hn
        rw [escapeHtml_inert hbackslash, escapeHtml_inert hletter,
          escapeHtml_inert (isInert_hexDigit h₁), escapeHtml_inert (isInert_hexDigit h₂),
          escapeHtml_inert (isInert_hexDigit h₃), escapeHtml_inert (isInert_hexDigit h₄)]
        exact .unicode h₁ h₂ h₃ h₄ (ih (by omega) h)

theorem isHtml_cases {b : UInt8} (h : isHtml b) : b = byte '<' ∨ b = byte '>' ∨ b = byte '&' := by
  simpa [isHtml, or_assoc] using h

/-- An escape in hexadecimal digits. -/
theorem byteEscape_eq {b : UInt8} (h : isHtml b) :
    ∃ d₁ d₂, isHexDigit d₁ ∧ isHexDigit d₂ ∧
      byteEscape b = [byte '\\', byte 'u', byte '0', byte '0', d₁, d₂] ∧
      codeUnit (byte '0') (byte '0') d₁ d₂ = b.toNat ∧ b < 0x80 := by
  rcases isHtml_cases h with rfl | rfl | rfl
  · exact ⟨byte '3', byte 'c', by decide, by decide, by decide +kernel, by decide, by decide⟩
  · exact ⟨byte '3', byte 'e', by decide, by decide, by decide +kernel, by decide, by decide⟩
  · exact ⟨byte '2', byte '6', by decide, by decide, by decide +kernel, by decide, by decide⟩

theorem separatorEscape_eq {c : UInt8} (h : c = 0xA8 ∨ c = 0xA9) :
    ∃ d, isHexDigit d ∧
      separatorEscape c = [byte '\\', byte 'u', byte '2', byte '0', byte '2', d] ∧
      codeUnit (byte '2') (byte '0') (byte '2') d = 0x2000 + (c.toNat - 0x80) := by
  rcases h with rfl | rfl
  · exact ⟨byte '8', by decide, by decide +kernel, by decide⟩
  · exact ⟨byte '9', by decide, by decide +kernel, by decide⟩

theorem EscapesTo.lexeme {raw raw' : Bytes} (h : EscapesTo raw raw') : StringLexeme raw' := by
  induction h with
  | nil => exact .nil
  | kept h₁ h₂ h₃ _ ih => exact .plain h₁ h₂ h₃ ih
  | html h _ ih =>
    obtain ⟨d₁, d₂, hd₁, hd₂, heq, -⟩ := byteEscape_eq h
    rw [heq]
    exact .unicode (by decide) (by decide) hd₁ hd₂ ih
  | separator h _ ih =>
    obtain ⟨d, hd, heq, -⟩ := separatorEscape_eq h
    rw [heq]
    exact .unicode (by decide) (by decide) (by decide) hd ih
  | escape h _ ih => exact .escape h ih
  | unicode h₁ h₂ h₃ h₄ _ ih => exact .unicode h₁ h₂ h₃ h₄ ih

theorem escapeHtml_lexeme {raw : Bytes} (h : StringLexeme raw) : StringLexeme (escapeHtml raw) :=
  (escapesTo_escapeHtml raw.length le_rfl h).lexeme

/-- How many bytes of a rune may follow. -/
def tails (bs : Bytes) : ℕ := (bs.takeWhile isTail).length

theorem rune2_tail {a b : UInt8} {r : Char} (h : rune2 a b = some r) : isTail b := by
  unfold rune2 at h
  split_ifs at h with hcond
  simp only [Bool.and_eq_true] at hcond
  exact hcond.2

/-- A range within that of the tail bytes. -/
theorem isTail_of_range {low high b : UInt8} (hlow : 0x80 ≤ low) (hhigh : high ≤ 0xBF)
    (h : low ≤ b ∧ b ≤ high) : isTail b := by
  simp only [isTail, Bool.and_eq_true, decide_eq_true_eq]
  exact ⟨UInt8.le_trans hlow h.1, UInt8.le_trans h.2 hhigh⟩

theorem rune3_tail {a b c : UInt8} {r : Char} (h : rune3 a b c = some r) : isTail b ∧ isTail c := by
  simp only [rune3, Option.ite_none_right_eq_some, Bool.and_eq_true] at h
  obtain ⟨hcond, -⟩ := h
  obtain ⟨⟨-, hsecond⟩, hthird⟩ := hcond
  refine ⟨?_, hthird⟩
  split_ifs at hsecond
  · exact isTail_of_range (by decide : (0x80 : UInt8) ≤ 0xA0) (by decide : (0xBF : UInt8) ≤ 0xBF)
      (by simpa using hsecond)
  · exact isTail_of_range (by decide : (0x80 : UInt8) ≤ 0x80) (by decide : (0x9F : UInt8) ≤ 0xBF)
      (by simpa using hsecond)
  · exact hsecond

theorem rune4_tail {a b c d : UInt8} {r : Char} (h : rune4 a b c d = some r) :
    isTail b ∧ isTail c ∧ isTail d := by
  simp only [rune4, Option.ite_none_right_eq_some, Bool.and_eq_true] at h
  obtain ⟨hcond, -⟩ := h
  obtain ⟨⟨⟨-, hsecond⟩, hthird⟩, hfourth⟩ := hcond
  refine ⟨?_, hthird, hfourth⟩
  split_ifs at hsecond
  · exact isTail_of_range (by decide : (0x80 : UInt8) ≤ 0x90) (by decide : (0xBF : UInt8) ≤ 0xBF)
      (by simpa using hsecond)
  · exact isTail_of_range (by decide : (0x80 : UInt8) ≤ 0x80) (by decide : (0x8F : UInt8) ≤ 0xBF)
      (by simpa using hsecond)
  · exact hsecond

/-- A rune is read off its tail bytes alone. -/
theorem multibyte_takeWhile (b : UInt8) (bs : Bytes) :
    multibyte b bs = multibyte b (bs.takeWhile isTail) := by
  have h2 : ∀ c, isTail c = false → rune2 b c = none := fun c hc =>
    Option.eq_none_iff_forall_not_mem.2 fun r hr => by simp [rune2_tail hr] at hc
  have h3 : ∀ c d, isTail c = false ∨ isTail d = false → rune3 b c d = none := fun c d hcd =>
    Option.eq_none_iff_forall_not_mem.2 fun r hr => by simp [rune3_tail hr] at hcd
  have h4 : ∀ c d e, isTail c = false ∨ isTail d = false ∨ isTail e = false →
      rune4 b c d e = none := fun c d e hcde =>
    Option.eq_none_iff_forall_not_mem.2 fun r hr => by simp [rune4_tail hr] at hcde
  match bs with
  | [] => rfl
  | [c] =>
    cases hc : isTail c with
    | true => simp [hc]
    | false => simp [multibyte, hc, h2 c hc]
  | [c, d] =>
    cases hc : isTail c with
    | false => simp [multibyte, hc, h2 c hc, h3 c d (.inl hc)]
    | true =>
      cases hd : isTail d with
      | true => simp [hc, hd]
      | false => cases hr : rune2 b c <;> simp [multibyte, hc, hd, hr, h3 c d (.inr hd)]
  | c :: d :: e :: bs =>
    cases hc : isTail c with
    | false => simp [multibyte, hc, h2 c hc, h3 c d (.inl hc), h4 c d e (.inl hc)]
    | true =>
      cases hd : isTail d with
      | false =>
        cases hr : rune2 b c <;>
          simp [multibyte, hc, hd, hr, h3 c d (.inr hd), h4 c d e (.inr (.inl hd))]
      | true =>
        cases he : isTail e with
        | true => simp [multibyte, hc, hd, he]
        | false =>
          cases hr : rune2 b c <;> cases hr' : rune3 b c d <;>
            simp [multibyte, hc, hd, he, hr, hr', h4 c d e (.inr (.inr he))]

theorem multibyte_le (b : UInt8) (bs : Bytes) : (multibyte b bs).2 ≤ bs.length := by
  unfold multibyte
  split
  · split <;> simp
  · split <;> simp
  · split <;> simp
  · simp

theorem EscapesTo.takeWhile {raw raw' : Bytes} (h : EscapesTo raw raw') :
    raw'.takeWhile isTail = raw.takeWhile isTail := by
  have hbackslash : isTail (byte '\\') = false := by decide
  induction h with
  | nil => rfl
  | kept _ _ _ _ ih =>
    rw [List.takeWhile_cons, List.takeWhile_cons, ih]
  | html h _ _ =>
    obtain ⟨d₁, d₂, -, -, heq, -, hlow⟩ := byteEscape_eq h
    have htail : ∀ b, isHtml b → isTail b = false := by
      intro b hb
      rcases isHtml_cases hb with rfl | rfl | rfl <;> decide
    rw [heq, List.cons_append, List.takeWhile_cons, List.takeWhile_cons, hbackslash, htail _ h]
    rfl
  | separator h _ _ =>
    obtain ⟨d, -, heq, -⟩ := separatorEscape_eq h
    have hlead : isTail 0xE2 = false := by decide
    rw [heq, List.cons_append, List.takeWhile_cons, List.takeWhile_cons, hbackslash, hlead]
    rfl
  | escape _ _ _ => rw [List.takeWhile_cons, List.takeWhile_cons, hbackslash]; rfl
  | unicode _ _ _ _ _ _ => rw [List.takeWhile_cons, List.takeWhile_cons, hbackslash]; rfl

theorem unquoteFrom_succ (n : ℕ) (b : UInt8) (bs : Bytes) :
    unquoteFrom (n + 1) (b :: bs) = unquoteFrom n bs := rfl

theorem unquoteFrom_zero (b : UInt8) (bs : Bytes) :
    unquoteFrom 0 (b :: bs) = (character b bs).1 :: unquoteFrom (character b bs).2 bs := rfl

/-- The character a plain byte starts is that of its tail bytes. -/
theorem character_kept {b : UInt8} (hb : b ≠ byte '\\') {raw raw' : Bytes}
    (h : raw'.takeWhile isTail = raw.takeWhile isTail) :
    character b raw' = character b raw ∧ (character b raw).2 ≤ tails raw := by
  have hslash : (b == byte '\\') = false := by simpa using hb
  unfold character
  rw [hslash]
  by_cases hlow : b < 0x80
  · simp [hlow]
  · have hbound := multibyte_le b (raw.takeWhile isTail)
    rw [← multibyte_takeWhile] at hbound
    simp only [hlow, if_false, Bool.false_eq_true]
    exact ⟨by rw [multibyte_takeWhile b raw', multibyte_takeWhile b raw, h], hbound⟩

/-- What a code unit stands for by itself. -/
def lonely (unit : ℕ) : Char × ℕ :=
  if isSurrogate unit then (replacement, 4) else (Char.ofNat unit, 4)

theorem lonely_snd (unit : ℕ) : (lonely unit).2 = 4 := by unfold lonely; split <;> rfl

/-- A code unit before six bytes. -/
theorem unicodeEscape_six (h₁ h₂ h₃ h₄ s u g₁ g₂ g₃ g₄ : UInt8) (rest : Bytes) :
    unicodeEscape (h₁ :: h₂ :: h₃ :: h₄ :: s :: u :: g₁ :: g₂ :: g₃ :: g₄ :: rest) =
      if isSurrogate (codeUnit h₁ h₂ h₃ h₄) then
        match surrogatePair (codeUnit h₁ h₂ h₃ h₄) (codeUnit g₁ g₂ g₃ g₄) with
        | some r => if s == byte '\\' && u == byte 'u' then (r, 10) else (replacement, 4)
        | none => (replacement, 4)
      else (Char.ofNat (codeUnit h₁ h₂ h₃ h₄), 4) := rfl

/-- A surrogate takes no partner that does not start with a backslash. -/
theorem unicodeEscape_alone {h₁ h₂ h₃ h₄ : UInt8} {raw : Bytes}
    (h : ∀ rest, raw ≠ byte '\\' :: byte 'u' :: rest) :
    unicodeEscape (h₁ :: h₂ :: h₃ :: h₄ :: raw) = lonely (codeUnit h₁ h₂ h₃ h₄) := by
  match raw, h with
  | s :: u :: g₁ :: g₂ :: g₃ :: g₄ :: rest, h =>
    have hnot : (s == byte '\\' && u == byte 'u') = false := by
      by_contra hboth
      rw [Bool.not_eq_false, Bool.and_eq_true, beq_iff_eq, beq_iff_eq] at hboth
      obtain ⟨rfl, rfl⟩ := hboth
      exact h _ rfl
    rw [unicodeEscape_six, hnot, lonely]
    cases surrogatePair (codeUnit h₁ h₂ h₃ h₄) (codeUnit g₁ g₂ g₃ g₄) <;> rfl
  | [], _ => rfl
  | [_], _ => rfl
  | [_, _], _ => rfl
  | [_, _, _], _ => rfl
  | [_, _, _, _], _ => rfl
  | [_, _, _, _, _], _ => rfl

/-- The escape of another code unit is no partner either. -/
theorem unicodeEscape_stranger {h₁ h₂ h₃ h₄ g₁ g₂ g₃ g₄ : UInt8} {raw : Bytes}
    (h : codeUnit g₁ g₂ g₃ g₄ < 0xDC00) :
    unicodeEscape (h₁ :: h₂ :: h₃ :: h₄ :: byte '\\' :: byte 'u' :: g₁ :: g₂ :: g₃ :: g₄ :: raw) =
      lonely (codeUnit h₁ h₂ h₃ h₄) := by
  have hnone : surrogatePair (codeUnit h₁ h₂ h₃ h₄) (codeUnit g₁ g₂ g₃ g₄) = none := by
    rw [surrogatePair, if_neg]
    omega
  rw [unicodeEscape_six, hnone]
  rfl

/-- Before another escape a code unit takes four digits, or that escape with it. -/
theorem unicodeEscape_pair (h₁ h₂ h₃ h₄ g₁ g₂ g₃ g₄ : UInt8) (raw : Bytes) :
    (unicodeEscape (h₁ :: h₂ :: h₃ :: h₄ ::
        byte '\\' :: byte 'u' :: g₁ :: g₂ :: g₃ :: g₄ :: raw)).2 = 4 ∨
      (unicodeEscape (h₁ :: h₂ :: h₃ :: h₄ ::
        byte '\\' :: byte 'u' :: g₁ :: g₂ :: g₃ :: g₄ :: raw)).2 = 10 := by
  rw [unicodeEscape_six]
  by_cases hsurrogate : isSurrogate (codeUnit h₁ h₂ h₃ h₄)
  · rw [if_pos hsurrogate]
    cases surrogatePair (codeUnit h₁ h₂ h₃ h₄) (codeUnit g₁ g₂ g₃ g₄) with
    | none => exact .inl rfl
    | some r => exact .inr rfl
  · rw [if_neg hsurrogate]
    exact .inl rfl

/-- A list that starts with another byte starts no escape. -/
theorem not_escape_of_ne {a : UInt8} (ha : a ≠ byte '\\') (bs rest : Bytes) :
    a :: bs ≠ byte '\\' :: byte 'u' :: rest := fun heq => ha (List.cons.inj heq).1

theorem slash_ne_of_isHtml {b : UInt8} (h : isHtml b) : b ≠ byte '\\' := by
  rcases isHtml_cases h with rfl | rfl | rfl <;> decide

/-- A `\\u` escape reads the same before an escaped text, and takes four digits or a partner
with it. -/
theorem unicodeEscape_escapesTo (h₁ h₂ h₃ h₄ : UInt8) {raw raw' : Bytes} (h : EscapesTo raw raw') :
    unicodeEscape (h₁ :: h₂ :: h₃ :: h₄ :: raw') = unicodeEscape (h₁ :: h₂ :: h₃ :: h₄ :: raw) ∧
      ((unicodeEscape (h₁ :: h₂ :: h₃ :: h₄ :: raw)).2 = 4 ∨
        (unicodeEscape (h₁ :: h₂ :: h₃ :: h₄ :: raw)).2 = 10 ∧
          ∃ partner rest rest', partner.length = 6 ∧ raw = partner ++ rest ∧
            raw' = partner ++ rest' ∧ EscapesTo rest rest') := by
  -- unless a partner follows, the code unit stands alone on both sides
  have halone : ∀ {bs : Bytes},
      unicodeEscape (h₁ :: h₂ :: h₃ :: h₄ :: bs) = lonely (codeUnit h₁ h₂ h₃ h₄) →
      (unicodeEscape (h₁ :: h₂ :: h₃ :: h₄ :: bs)).2 = 4 := by
    intro bs hbs
    rw [hbs, lonely_snd]
  cases h with
  | nil => exact ⟨rfl, .inl (halone rfl)⟩
  | @kept b raw raw' _ hslash _ _ =>
    have hraw : unicodeEscape (h₁ :: h₂ :: h₃ :: h₄ :: b :: raw) = lonely _ :=
      unicodeEscape_alone (not_escape_of_ne hslash raw)
    have hraw' : unicodeEscape (h₁ :: h₂ :: h₃ :: h₄ :: b :: raw') = lonely _ :=
      unicodeEscape_alone (not_escape_of_ne hslash raw')
    exact ⟨hraw'.trans hraw.symm, .inl (halone hraw)⟩
  | @html b raw raw' hhtml _ =>
    obtain ⟨d₁, d₂, -, -, heq, hunit, hlow⟩ := byteEscape_eq hhtml
    have hsmall : codeUnit (byte '0') (byte '0') d₁ d₂ < 0xDC00 := by
      have hbound : b.toNat < 128 := UInt8.lt_iff_toNat_lt.1 hlow
      omega
    have hraw : unicodeEscape (h₁ :: h₂ :: h₃ :: h₄ :: b :: raw) = lonely _ :=
      unicodeEscape_alone (not_escape_of_ne (slash_ne_of_isHtml hhtml) raw)
    rw [heq]
    exact ⟨(unicodeEscape_stranger hsmall).trans hraw.symm, .inl (halone hraw)⟩
  | @separator c raw raw' hc _ =>
    obtain ⟨d, -, heq, hunit⟩ := separatorEscape_eq hc
    have hsmall : codeUnit (byte '2') (byte '0') (byte '2') d < 0xDC00 := by
      have hbound := UInt8.toNat_lt c
      omega
    have hraw : unicodeEscape (h₁ :: h₂ :: h₃ :: h₄ :: 0xE2 :: 0x80 :: c :: raw) = lonely _ :=
      unicodeEscape_alone (not_escape_of_ne (by decide) _)
    rw [heq]
    exact ⟨(unicodeEscape_stranger hsmall).trans hraw.symm, .inl (halone hraw)⟩
  | @escape e raw raw' he _ =>
    have hletter : ∀ bs rest : Bytes, byte '\\' :: e :: bs ≠ byte '\\' :: byte 'u' :: rest := by
      intro bs rest heq
      have hu : e = byte 'u' := (List.cons.inj (List.cons.inj heq).2).1
      rw [hu] at he
      exact absurd he (by decide)
    have hraw : unicodeEscape (h₁ :: h₂ :: h₃ :: h₄ :: byte '\\' :: e :: raw) = lonely _ :=
      unicodeEscape_alone (hletter raw)
    have hraw' : unicodeEscape (h₁ :: h₂ :: h₃ :: h₄ :: byte '\\' :: e :: raw') = lonely _ :=
      unicodeEscape_alone (hletter raw')
    exact ⟨hraw'.trans hraw.symm, .inl (halone hraw)⟩
  | @unicode g₁ g₂ g₃ g₄ rest rest' hg₁ hg₂ hg₃ hg₄ h =>
    refine ⟨rfl, ?_⟩
    rcases unicodeEscape_pair h₁ h₂ h₃ h₄ g₁ g₂ g₃ g₄ rest with hfour | hten
    · exact .inl hfour
    · exact .inr ⟨hten, [byte '\\', byte 'u', g₁, g₂, g₃, g₄], rest, rest', rfl, rfl, rfl, h⟩

theorem character_unicode (bs : Bytes) : character (byte '\\') (byte 'u' :: bs) =
    ((unicodeEscape bs).1, (unicodeEscape bs).2 + 1) := rfl

theorem unquoteFrom_append (front bs : Bytes) :
    unquoteFrom front.length (front ++ bs) = unquoteFrom 0 bs := by
  induction front with
  | nil => rfl
  | cons b front ih => exact ih

/-- An escape of a code unit that is no surrogate says that code point. -/
theorem unquote_unicode {h₁ h₂ h₃ h₄ : UInt8} (h : isSurrogate (codeUnit h₁ h₂ h₃ h₄) = false)
    (bs : Bytes) : unquoteFrom 0 (byte '\\' :: byte 'u' :: h₁ :: h₂ :: h₃ :: h₄ :: bs) =
      Char.ofNat (codeUnit h₁ h₂ h₃ h₄) :: unquoteFrom 0 bs := by
  have hescape : unicodeEscape (h₁ :: h₂ :: h₃ :: h₄ :: bs) =
      (Char.ofNat (codeUnit h₁ h₂ h₃ h₄), 4) := by
    unfold unicodeEscape
    simp only [h]
    rfl
  rw [unquoteFrom_zero, character_unicode, hescape]
  rfl

/-- A byte that is no tail byte is not passed over. -/
theorem tails_cons {b : UInt8} (h : isTail b = false) (bs : Bytes) : tails (b :: bs) = 0 := by
  rw [tails, List.takeWhile_cons, h]
  rfl

/-- A separator is one character of three bytes. -/
theorem separator_character {c : UInt8} (h : c = 0xA8 ∨ c = 0xA9) (bs : Bytes) :
    character 0xE2 (0x80 :: c :: bs) = (Char.ofNat (0x2000 + (c.toNat - 0x80)), 2) := by
  have htwo : rune2 0xE2 0x80 = none := by decide
  have hthree : rune3 0xE2 0x80 c = some (Char.ofNat (0x2000 + (c.toNat - 0x80))) := by
    rcases h with rfl | rfl <;> decide
  have hslash : ((0xE2 : UInt8) == byte '\\') = false := by decide
  have hhigh : ¬ (0xE2 : UInt8) < 0x80 := by decide
  unfold character
  simp only [hslash, hhigh, if_false, Bool.false_eq_true]
  cases bs <;> simp only [multibyte, htwo, hthree]

/-- A tail byte is kept as it is. -/
theorem EscapesTo.kept_of_tails {raw raw' : Bytes} (h : EscapesTo raw raw') {skip : ℕ}
    (hskip : skip + 1 ≤ tails raw) : ∃ b rest rest', raw = b :: rest ∧ raw' = b :: rest' ∧
      EscapesTo rest rest' ∧ skip ≤ tails rest := by
  have hslash : isTail (byte '\\') = false := by decide
  cases h with
  | nil => cases hskip
  | @kept b rest rest' _ _ _ h =>
    rw [tails, List.takeWhile_cons] at hskip
    split_ifs at hskip
    · rw [List.length_cons] at hskip
      exact ⟨b, rest, rest', rfl, rfl, h, Nat.le_of_succ_le_succ hskip⟩
    · cases hskip
  | @html b rest rest' hhtml _ =>
    have hlead : isTail b = false := by rcases isHtml_cases hhtml with rfl | rfl | rfl <;> decide
    rw [tails_cons hlead] at hskip
    cases hskip
  | separator _ _ =>
    rw [tails_cons (by decide)] at hskip
    cases hskip
  | escape _ _ =>
    rw [tails_cons hslash] at hskip
    cases hskip
  | unicode _ _ _ _ _ =>
    rw [tails_cons hslash] at hskip
    cases hskip

/-- An escaped lexeme says what the lexeme says, from any byte that starts a character. -/
theorem unquoteFrom_escapesTo (n : ℕ) {raw raw' : Bytes} (hn : raw.length ≤ n)
    (h : EscapesTo raw raw') (skip : ℕ) (hskip : skip ≤ tails raw) :
    unquoteFrom skip raw' = unquoteFrom skip raw := by
  induction n generalizing raw raw' skip with
  | zero =>
    obtain rfl := List.length_eq_zero_iff.1 (Nat.le_zero.1 hn)
    cases h
    rfl
  | succ n ih =>
    cases skip with
    | succ skip =>
      -- the byte belongs to a character already read
      obtain ⟨b, rest, rest', rfl, rfl, h, hrest⟩ := h.kept_of_tails hskip
      rw [List.length_cons] at hn
      exact ih (by omega) h skip hrest
    | zero =>
      cases h with
      | nil => rfl
      | @kept b raw raw' _ hslash _ h =>
        obtain ⟨hcharacter, hbound⟩ := character_kept hslash h.takeWhile
        rw [List.length_cons] at hn
        rw [unquoteFrom_zero, unquoteFrom_zero, hcharacter, ih (by omega) h _ hbound]
      | @html b raw raw' hhtml h =>
        obtain ⟨d₁, d₂, -, -, heq, hunit, hlow⟩ := byteEscape_eq hhtml
        have hself : character b raw = (Char.ofNat b.toNat, 0) := by
          have hslash : (b == byte '\\') = false := by simpa using slash_ne_of_isHtml hhtml
          simp [character, hslash, hlow]
        have hplain : isSurrogate (codeUnit (byte '0') (byte '0') d₁ d₂) = false := by
          rw [hunit]
          rcases isHtml_cases hhtml with rfl | rfl | rfl <;> decide
        rw [List.length_cons] at hn
        have hrest := ih (by omega) h 0 (Nat.zero_le _)
        rw [heq]
        simp only [List.cons_append, List.nil_append]
        rw [unquote_unicode hplain, unquoteFrom_zero, hself, hunit, hrest]
      | @separator c raw raw' hc h =>
        obtain ⟨d, -, heq, hunit⟩ := separatorEscape_eq hc
        have hself : character 0xE2 (0x80 :: c :: raw) =
            (Char.ofNat (0x2000 + (c.toNat - 0x80)), 2) := separator_character hc raw
        have hplain : isSurrogate (codeUnit (byte '2') (byte '0') (byte '2') d) = false := by
          rw [hunit]
          rcases hc with rfl | rfl <;> decide
        simp only [List.length_cons] at hn
        have hrest := ih (by omega) h 0 (Nat.zero_le _)
        rw [heq]
        simp only [List.cons_append, List.nil_append]
        rw [unquote_unicode hplain, unquoteFrom_zero, hself, hunit, hrest, unquoteFrom_succ,
          unquoteFrom_succ]
      | @escape e raw raw' he h =>
        have hletter : (e == byte 'u') = false := by
          rw [beq_eq_false_iff_ne]
          rintro rfl
          exact absurd he (by decide)
        have hcharacter : ∀ bs, character (byte '\\') (e :: bs) = (escaped e, 1) := by
          intro bs
          simp [character, hletter]
        simp only [List.length_cons] at hn
        rw [unquoteFrom_zero, unquoteFrom_zero, hcharacter, hcharacter]
        exact congrArg _ (ih (by omega) h 0 (Nat.zero_le _))
      | @unicode d₁ d₂ d₃ d₄ raw raw' h₁ h₂ h₃ h₄ h =>
        simp only [List.length_cons] at hn
        obtain ⟨heq, htake⟩ := unicodeEscape_escapesTo d₁ d₂ d₃ d₄ h
        rw [unquoteFrom_zero, unquoteFrom_zero, character_unicode, character_unicode, heq]
        refine congrArg _ ?_
        rcases htake with htake | ⟨htake, partner, rest, rest', hsix, rfl, rfl, hrest⟩
        · simp only [htake]
          exact ih (by omega) h 0 (Nat.zero_le _)
        · simp only [htake]
          have hdrop : ∀ bs : Bytes, unquoteFrom (10 + 1)
              (byte 'u' :: d₁ :: d₂ :: d₃ :: d₄ :: (partner ++ bs)) = unquoteFrom 0 bs := by
            intro bs
            have hsuffix := unquoteFrom_append (byte 'u' :: d₁ :: d₂ :: d₃ :: d₄ :: partner) bs
            simpa [hsix] using hsuffix
          rw [List.length_append] at hn
          rw [hdrop, hdrop]
          exact ih (by omega) hrest 0 (Nat.zero_le _)

/-- The HTML escaping of a raw message does not change what its strings say. -/
theorem unquote_escapeHtml {raw : Bytes} (h : StringLexeme raw) :
    unquote (escapeHtml raw) = unquote raw :=
  unquoteFrom_escapesTo raw.length le_rfl (escapesTo_escapeHtml raw.length le_rfl h) 0
    (Nat.zero_le _)

theorem toNat_ofNat_of_lt {n : ℕ} (h : n < 256) : (UInt8.ofNat n).toNat = n := by
  rw [UInt8.toNat_ofNat']
  omega

theorem UInt8_le_iff {a b : UInt8} : a ≤ b ↔ a.toNat ≤ b.toNat := Iff.rfl

theorem isTail_ofNat {n : ℕ} (hlow : 0x80 ≤ n) (hhigh : n ≤ 0xBF) : isTail (UInt8.ofNat n) := by
  have hn := toNat_ofNat_of_lt (n := n) (by omega)
  simp only [isTail, Bool.and_eq_true, decide_eq_true_eq, UInt8_le_iff, hn]
  exact ⟨hlow, hhigh⟩

theorem rune2_encoded {v : ℕ} (hlow : 0x80 ≤ v) (hhigh : v < 0x800) :
    rune2 (UInt8.ofNat (v / 64 % 0x20 + 0xC0)) (UInt8.ofNat (v % 0x40 + 0x80)) =
      some (Char.ofNat v) := by
  have hfirst := toNat_ofNat_of_lt (n := v / 64 % 0x20 + 0xC0) (by omega)
  have hsecond := toNat_ofNat_of_lt (n := v % 0x40 + 0x80) (by omega)
  have htail : isTail (UInt8.ofNat (v % 0x40 + 0x80)) := isTail_ofNat (by omega) (by omega)
  have hvalue : (v / 64 % 0x20 + 0xC0) % 0x20 * 0x40 + (v % 0x40 + 0x80) % 0x40 = v := by omega
  rw [rune2, if_pos, tailBits, hfirst, hsecond, hvalue]
  simp only [Bool.and_eq_true, decide_eq_true_eq, UInt8_le_iff, hfirst]
  refine ⟨⟨?_, ?_⟩, htail⟩
  · change 0xC2 ≤ _
    omega
  · change _ ≤ 0xDF
    omega

/-- The scalar values are those outside the surrogates. -/
theorem scalar_bounds (c : Char) : c.toNat < 0xD800 ∨ 0xDFFF < c.toNat ∧ c.toNat < 0x110000 :=
  c.valid

theorem rune3_encoded {v : ℕ} (hlow : 0x800 ≤ v) (hhigh : v ≤ 0xFFFF)
    (hscalar : v < 0xD800 ∨ 0xDFFF < v) :
    rune3 (UInt8.ofNat (v / 4096 % 0x10 + 0xE0)) (UInt8.ofNat (v / 64 % 0x40 + 0x80))
      (UInt8.ofNat (v % 0x40 + 0x80)) = some (Char.ofNat v) := by
  have hfirst := toNat_ofNat_of_lt (n := v / 4096 % 0x10 + 0xE0) (by omega)
  have hsecond := toNat_ofNat_of_lt (n := v / 64 % 0x40 + 0x80) (by omega)
  have hthird := toNat_ofNat_of_lt (n := v % 0x40 + 0x80) (by omega)
  have htail : isTail (UInt8.ofNat (v / 64 % 0x40 + 0x80)) := isTail_ofNat (by omega) (by omega)
  have htail' : isTail (UInt8.ofNat (v % 0x40 + 0x80)) := isTail_ofNat (by omega) (by omega)
  have hvalue : ((v / 4096 % 0x10 + 0xE0) % 0x10 * 0x40 + (v / 64 % 0x40 + 0x80) % 0x40) * 0x40 +
      (v % 0x40 + 0x80) % 0x40 = v := by omega
  rw [rune3, if_pos, tailBits, tailBits, hfirst, hsecond, hthird, hvalue]
  simp only [Bool.and_eq_true, decide_eq_true_eq, UInt8_le_iff, beq_iff_eq, hfirst]
  refine ⟨⟨⟨?_, ?_⟩, ?_⟩, htail'⟩
  · change 0xE0 ≤ _
    omega
  · change _ ≤ 0xEF
    omega
  · -- the shortest forms and the surrogates are excluded
    split_ifs with hleast hsurrogate
    · have hlead := congrArg UInt8.toNat hleast
      rw [hfirst] at hlead
      change _ = 0xE0 at hlead
      simp only [Bool.and_eq_true, decide_eq_true_eq, hsecond]
      change 0xA0 ≤ _ ∧ _ ≤ 0xBF
      omega
    · have hlead := congrArg UInt8.toNat hsurrogate
      rw [hfirst] at hlead
      change _ = 0xED at hlead
      simp only [Bool.and_eq_true, decide_eq_true_eq, hsecond]
      change 0x80 ≤ _ ∧ _ ≤ 0x9F
      omega
    · exact htail

theorem rune4_encoded {v : ℕ} (hlow : 0x10000 ≤ v) (hhigh : v < 0x110000) :
    rune4 (UInt8.ofNat (v / 262144 % 0x08 + 0xF0)) (UInt8.ofNat (v / 4096 % 0x40 + 0x80))
      (UInt8.ofNat (v / 64 % 0x40 + 0x80)) (UInt8.ofNat (v % 0x40 + 0x80)) =
      some (Char.ofNat v) := by
  have hfirst := toNat_ofNat_of_lt (n := v / 262144 % 0x08 + 0xF0) (by omega)
  have hsecond := toNat_ofNat_of_lt (n := v / 4096 % 0x40 + 0x80) (by omega)
  have hthird := toNat_ofNat_of_lt (n := v / 64 % 0x40 + 0x80) (by omega)
  have hfourth := toNat_ofNat_of_lt (n := v % 0x40 + 0x80) (by omega)
  have htail : isTail (UInt8.ofNat (v / 4096 % 0x40 + 0x80)) := isTail_ofNat (by omega) (by omega)
  have htail' : isTail (UInt8.ofNat (v / 64 % 0x40 + 0x80)) := isTail_ofNat (by omega) (by omega)
  have htail'' : isTail (UInt8.ofNat (v % 0x40 + 0x80)) := isTail_ofNat (by omega) (by omega)
  have hvalue : (((v / 262144 % 0x08 + 0xF0) % 0x08 * 0x40 + (v / 4096 % 0x40 + 0x80) % 0x40) * 0x40 +
      (v / 64 % 0x40 + 0x80) % 0x40) * 0x40 + (v % 0x40 + 0x80) % 0x40 = v := by omega
  rw [rune4, if_pos, tailBits, tailBits, tailBits, hfirst, hsecond, hthird, hfourth, hvalue]
  simp only [Bool.and_eq_true, decide_eq_true_eq, UInt8_le_iff, beq_iff_eq, hfirst]
  refine ⟨⟨⟨⟨?_, ?_⟩, ?_⟩, htail'⟩, htail''⟩
  · change 0xF0 ≤ _
    omega
  · change _ ≤ 0xF4
    omega
  · split_ifs with hleast hgreatest
    · have hlead := congrArg UInt8.toNat hleast
      rw [hfirst] at hlead
      change _ = 0xF0 at hlead
      simp only [Bool.and_eq_true, decide_eq_true_eq, hsecond]
      change 0x90 ≤ _ ∧ _ ≤ 0xBF
      omega
    · have hlead := congrArg UInt8.toNat hgreatest
      rw [hfirst] at hlead
      change _ = 0xF4 at hlead
      simp only [Bool.and_eq_true, decide_eq_true_eq, hsecond]
      change 0x80 ≤ _ ∧ _ ≤ 0x8F
      omega
    · exact htail

/-- Runes of different lengths have different first bytes. -/
theorem rune2_of_ge {a b : UInt8} (h : 0xE0 ≤ a.toNat) : rune2 a b = none := by
  rw [rune2, if_neg]
  intro hcond
  simp only [Bool.and_eq_true, decide_eq_true_eq, UInt8_le_iff] at hcond
  have hhigh : a.toNat ≤ 0xDF := hcond.1.2
  omega

theorem rune3_of_ge {a b c : UInt8} (h : 0xF0 ≤ a.toNat) : rune3 a b c = none := by
  rw [rune3, if_neg]
  intro hcond
  simp only [Bool.and_eq_true, decide_eq_true_eq, UInt8_le_iff] at hcond
  have hhigh : a.toNat ≤ 0xEF := hcond.1.1.2
  omega

/-- A character of more than one byte is read back, whatever follows it. -/
theorem multibyte_encoded {c : Char} (h : 0x80 ≤ c.toNat) :
    ∃ b bs, String.utf8EncodeChar c = b :: bs ∧ (∀ a ∈ b :: bs, 0x80 ≤ a.toNat) ∧
      ∀ rest, multibyte b (bs ++ rest) = (c, bs.length) := by
  have hscalar := scalar_bounds c
  have hself : Char.ofNat c.toNat = c := Char.ofNat_toNat c
  have hcval : c.val.toNat = c.toNat := rfl
  have hhigh : ∀ {n : ℕ}, 0x80 ≤ n → n < 256 → 0x80 ≤ (UInt8.ofNat n).toNat := by
    intro n hn hlt
    rw [toNat_ofNat_of_lt hlt]
    exact hn
  by_cases htwo : c.toNat < 0x800
  · have hrune := rune2_encoded h htwo
    rw [hself] at hrune
    have hencode : String.utf8EncodeChar c =
        [UInt8.ofNat (c.toNat / 64 % 0x20 + 0xC0), UInt8.ofNat (c.toNat % 0x40 + 0x80)] := by
      rw [String.utf8EncodeChar, hcval, if_neg (by omega), if_pos (by omega)]
    refine ⟨_, _, hencode, ?_, ?_⟩
    · simp only [List.mem_cons, List.not_mem_nil, or_false, forall_eq_or_imp, forall_eq]
      exact ⟨hhigh (by omega) (by omega), hhigh (by omega) (by omega)⟩
    · intro rest
      cases rest with
      | nil => simp only [List.append_nil, multibyte, hrune, List.length_cons, List.length_nil]
      | cons b₃ rest =>
        cases rest with
        | nil => simp only [List.cons_append, List.nil_append, multibyte, hrune, List.length_cons,
            List.length_nil]
        | cons b₄ rest => simp only [List.cons_append, List.nil_append, multibyte, hrune,
            List.length_cons, List.length_nil]
  · by_cases hthree : c.toNat ≤ 0xFFFF
    · have hrune := rune3_encoded (by omega) hthree (by omega)
      have hnot : ∀ b, rune2 (UInt8.ofNat (c.toNat / 4096 % 0x10 + 0xE0)) b = none := fun b =>
        rune2_of_ge (by rw [toNat_ofNat_of_lt (by omega)]; omega)
      rw [hself] at hrune
      have hencode : String.utf8EncodeChar c =
          [UInt8.ofNat (c.toNat / 4096 % 0x10 + 0xE0), UInt8.ofNat (c.toNat / 64 % 0x40 + 0x80),
            UInt8.ofNat (c.toNat % 0x40 + 0x80)] := by
        rw [String.utf8EncodeChar, hcval, if_neg (by omega), if_neg (by omega), if_pos hthree]
      refine ⟨_, _, hencode, ?_, ?_⟩
      · simp only [List.mem_cons, List.not_mem_nil, or_false, forall_eq_or_imp, forall_eq]
        exact ⟨hhigh (by omega) (by omega), hhigh (by omega) (by omega),
          hhigh (by omega) (by omega)⟩
      · intro rest
        cases rest with
        | nil => simp only [List.append_nil, multibyte, hrune, hnot, List.length_cons,
            List.length_nil]
        | cons _ _ => simp only [List.cons_append, List.nil_append, multibyte, hrune, hnot,
            List.length_cons, List.length_nil]
    · have hrune := rune4_encoded (v := c.toNat) (by omega) (by omega)
      have hlead : 0xF0 ≤ (UInt8.ofNat (c.toNat / 262144 % 0x08 + 0xF0)).toNat := by
        rw [toNat_ofNat_of_lt (by omega)]
        omega
      have hnot : ∀ b, rune2 (UInt8.ofNat (c.toNat / 262144 % 0x08 + 0xF0)) b = none := fun b =>
        rune2_of_ge (by omega)
      have hnot' : ∀ b d, rune3 (UInt8.ofNat (c.toNat / 262144 % 0x08 + 0xF0)) b d = none :=
        fun b d => rune3_of_ge hlead
      rw [hself] at hrune
      have hencode : String.utf8EncodeChar c =
          [UInt8.ofNat (c.toNat / 262144 % 0x08 + 0xF0), UInt8.ofNat (c.toNat / 4096 % 0x40 + 0x80),
            UInt8.ofNat (c.toNat / 64 % 0x40 + 0x80), UInt8.ofNat (c.toNat % 0x40 + 0x80)] := by
        rw [String.utf8EncodeChar, hcval, if_neg (by omega), if_neg (by omega), if_neg hthree]
      refine ⟨_, _, hencode, ?_, ?_⟩
      · simp only [List.mem_cons, List.not_mem_nil, or_false, forall_eq_or_imp, forall_eq]
        exact ⟨hhigh (by omega) (by omega), hhigh (by omega) (by omega),
          hhigh (by omega) (by omega), hhigh (by omega) (by omega)⟩
      · intro rest
        simp only [List.cons_append, List.nil_append, multibyte, hrune, hnot, hnot',
          List.length_cons, List.length_nil]

/-- What is written for an ASCII character, by its form. -/
def asciiForm (n : ℕ) : Bool :=
  match utf8 (quoteChar (Char.ofNat n)) with
  | [b] => b != byte '"' && b != byte '\\' && !(b < 0x20) && b.toNat == n && b < 0x80
  | [s, e] => s == byte '\\' && isEscape e && e != byte 'u' && escaped e == Char.ofNat n
  | [s, u, h₁, h₂, h₃, h₄] => s == byte '\\' && u == byte 'u' && isHexDigit h₁ && isHexDigit h₂ &&
      isHexDigit h₃ && isHexDigit h₄ && codeUnit h₁ h₂ h₃ h₄ == n
  | _ => false

theorem asciiForm_all : ∀ n < 128, asciiForm n = true := by decide +kernel

/-- A quoted character is part of a lexeme and says that character. -/
def Says (w : Bytes) (c : Char) : Prop :=
  (∀ raw, StringLexeme raw → StringLexeme (w ++ raw)) ∧
    ∀ rest, unquoteFrom 0 (w ++ rest) = c :: unquoteFrom 0 rest

theorem says_plain {b : UInt8} (hquote : b ≠ byte '"') (hslash : b ≠ byte '\\') (hctl : ¬ b < 0x20)
    (hlow : b < 0x80) : Says [b] (Char.ofNat b.toNat) := by
  refine ⟨fun raw h => .plain hquote hslash hctl h, fun rest => ?_⟩
  have hbeq : (b == byte '\\') = false := by simpa using hslash
  have hself : character b rest = (Char.ofNat b.toNat, 0) := by
    simp [character, hbeq, hlow]
  rw [List.singleton_append, unquoteFrom_zero, hself]

theorem says_escape {e : UInt8} (he : isEscape e) (hletter : e ≠ byte 'u') :
    Says [byte '\\', e] (escaped e) := by
  refine ⟨fun raw h => .escape he h, fun rest => ?_⟩
  have hbeq : (e == byte 'u') = false := by simpa using hletter
  have hself : character (byte '\\') (e :: rest) = (escaped e, 1) := by
    simp [character, hbeq]
  rw [List.cons_append, List.singleton_append, unquoteFrom_zero, hself, unquoteFrom_succ]

theorem says_unicode {h₁ h₂ h₃ h₄ : UInt8} (hd₁ : isHexDigit h₁) (hd₂ : isHexDigit h₂)
    (hd₃ : isHexDigit h₃) (hd₄ : isHexDigit h₄)
    (hplain : isSurrogate (codeUnit h₁ h₂ h₃ h₄) = false) :
    Says [byte '\\', byte 'u', h₁, h₂, h₃, h₄] (Char.ofNat (codeUnit h₁ h₂ h₃ h₄)) :=
  ⟨fun _ h => .unicode hd₁ hd₂ hd₃ hd₄ h, fun rest => unquote_unicode hplain rest⟩

theorem says_ascii {c : Char} (h : c.toNat < 0x80) : Says (utf8 (quoteChar c)) c := by
  have hform := asciiForm_all c.toNat h
  have hself : Char.ofNat c.toNat = c := Char.ofNat_toNat c
  rw [asciiForm, hself] at hform
  split at hform
  · rename_i b heq
    simp only [Bool.and_eq_true, bne_iff_ne, Bool.not_eq_true', decide_eq_false_iff_not,
      beq_iff_eq, decide_eq_true_eq] at hform
    obtain ⟨⟨⟨⟨hquote, hslash⟩, hctl⟩, hvalue⟩, hlow⟩ := hform
    have hsays := says_plain hquote hslash hctl hlow
    rwa [hvalue, hself, ← heq] at hsays
  · rename_i s e heq
    simp only [Bool.and_eq_true, bne_iff_ne, beq_iff_eq] at hform
    obtain ⟨⟨⟨rfl, he⟩, hletter⟩, hvalue⟩ := hform
    have hsays := says_escape he hletter
    rwa [hvalue, ← heq] at hsays
  · rename_i s u h₁ h₂ h₃ h₄ heq
    simp only [Bool.and_eq_true, beq_iff_eq] at hform
    obtain ⟨⟨⟨⟨⟨⟨rfl, rfl⟩, hd₁⟩, hd₂⟩, hd₃⟩, hd₄⟩, hvalue⟩ := hform
    have hplain : isSurrogate (codeUnit h₁ h₂ h₃ h₄) = false := by
      simp only [isSurrogate, hvalue, Bool.and_eq_false_iff, decide_eq_false_iff_not]
      omega
    have hsays := says_unicode hd₁ hd₂ hd₃ hd₄ hplain
    rwa [hvalue, hself, ← heq] at hsays
  · cases hform

theorem lexeme_high {w raw : Bytes} (hw : ∀ b ∈ w, 0x80 ≤ b.toNat) (h : StringLexeme raw) :
    StringLexeme (w ++ raw) := by
  induction w with
  | nil => exact h
  | cons b w ih =>
    have hb : 0x80 ≤ b.toNat := hw b (List.mem_cons_self ..)
    have hne : ∀ c : UInt8, c.toNat < 0x80 → b ≠ c := by
      rintro c hc rfl
      omega
    refine .plain (hne _ (by decide)) (hne _ (by decide)) ?_ (ih fun a ha => hw a (.tail _ ha))
    intro hlow
    have hlt : b.toNat < 0x20 := hlow
    omega

/-- A character written as it is, of more than one byte. -/
theorem says_encoded {c : Char} (h : 0x80 ≤ c.toNat) : Says (String.utf8EncodeChar c) c := by
  obtain ⟨b, bs, hencode, hhigh, hread⟩ := multibyte_encoded h
  rw [hencode]
  refine ⟨fun raw hraw => lexeme_high hhigh hraw, fun rest => ?_⟩
  have hb : 0x80 ≤ b.toNat := hhigh b (List.mem_cons_self ..)
  have hslash : (b == byte '\\') = false := by
    rw [beq_eq_false_iff_ne]
    rintro rfl
    exact absurd hb (by decide)
  have hlow : ¬ b < 0x80 := by
    intro hlow
    have hlt : b.toNat < 0x80 := hlow
    omega
  have hself : character b (bs ++ rest) = (c, bs.length) := by
    unfold character
    simp only [hslash, hlow, if_false, Bool.false_eq_true, hread]
  rw [List.cons_append, unquoteFrom_zero, hself, unquoteFrom_append]

theorem says_quoteChar (c : Char) : Says (utf8 (quoteChar c)) c := by
  by_cases hascii : c.toNat < 0x80
  · exact says_ascii hascii
  · by_cases hline : c.toNat = 0x2028
    · obtain rfl : c = '\u2028' := by
        rw [← Char.ofNat_toNat c, hline]
      exact says_unicode (by decide) (by decide) (by decide) (by decide) (by decide)
    · by_cases hparagraph : c.toNat = 0x2029
      · obtain rfl : c = '\u2029' := by
          rw [← Char.ofNat_toNat c, hparagraph]
        exact says_unicode (by decide) (by decide) (by decide) (by decide) (by decide)
      · have hne : ∀ d : Char, d.toNat < 0x80 → (c == d) = false := by
          intro d hd
          rw [beq_eq_false_iff_ne]
          rintro rfl
          exact hascii hd
        have hcontrol : ¬ c.toNat < 0x20 := by omega
        have hkept : quoteChar c = [c] := by
          simp [quoteChar, hne, hcontrol, hline, hparagraph]
        have hencode : utf8 [c] = String.utf8EncodeChar c := by
          rw [utf8, List.flatMap_singleton]
        rw [hkept, hencode]
        exact says_encoded (by omega)

theorem quoteString_cons (c : Char) (s : Str) :
    quoteString (c :: s) = utf8 (quoteChar c) ++ quoteString s := by
  rw [quoteString, quoteString, utf8, utf8, utf8, List.flatMap_cons, List.flatMap_append]

theorem quoteString_lexeme (s : Str) : StringLexeme (quoteString s) := by
  induction s with
  | nil => exact .nil
  | cons c s ih =>
    rw [quoteString_cons]
    exact (says_quoteChar c).1 _ ih

/-- Every string is what its quoting says. -/
theorem unquote_quoteString (s : Str) : unquote (quoteString s) = s := by
  induction s with
  | nil => rfl
  | cons c s ih =>
    rw [unquote] at ih
    rw [quoteString_cons, unquote, (says_quoteChar c).2, ih]

/-- Escaping starts with the byte it starts from, or with a backslash. -/
theorem escapeHtml_head (b : UInt8) (bs : Bytes) :
    ∃ a rest, escapeHtml (b :: bs) = a :: rest ∧ (a = b ∨ a = byte '\\') := by
  cases hsep : atSeparator (b :: bs) with
  | true =>
    obtain ⟨c, rest, hc, heq⟩ := atSeparator_cases hsep
    obtain ⟨d, -, hescape, -⟩ := separatorEscape_eq hc
    rw [heq, escapeHtml_separator hc, hescape]
    exact ⟨_, _, rfl, .inr rfl⟩
  | false =>
    rw [escapeHtml_cons hsep]
    cases hhtml : isHtml b with
    | false =>
      rw [byteEscape_of_not_html hhtml]
      exact ⟨_, _, rfl, .inl rfl⟩
    | true =>
      obtain ⟨d₁, d₂, -, -, hescape, -⟩ := byteEscape_eq hhtml
      rw [hescape]
      exact ⟨_, _, rfl, .inr rfl⟩

/-- An escaped text has no separator left at its start. -/
theorem atSeparator_escapeHtml {b : UInt8} {bs : Bytes} (h : atSeparator (b :: bs) = false) :
    atSeparator (b :: escapeHtml bs) = false := by
  by_contra hsep
  rw [Bool.not_eq_false] at hsep
  obtain ⟨c, rest, hc, heq⟩ := atSeparator_cases hsep
  obtain ⟨rfl, htail⟩ := List.cons.inj heq
  have hne : c ≠ byte '\\' := by rcases hc with rfl | rfl <;> decide
  match bs, htail, h with
  | x :: ys, htail, h =>
    obtain ⟨a, more, hhead, hor⟩ := escapeHtml_head x ys
    rw [hhead] at htail
    obtain ⟨rfl, hmore⟩ := List.cons.inj htail
    obtain rfl : (0x80 : UInt8) = x := by
      rcases hor with hx | hslash
      · exact hx
      · exact absurd hslash (by decide)
    rw [escapeHtml_inert (by decide)] at hhead
    obtain ⟨-, hmore'⟩ := List.cons.inj hhead
    rw [hmore] at hmore'
    match ys, hmore', h with
    | y :: zs, hmore', h =>
      obtain ⟨a, last, hhead', hor'⟩ := escapeHtml_head y zs
      rw [hhead'] at hmore'
      obtain ⟨rfl, -⟩ := List.cons.inj hmore'
      rcases hor' with rfl | hslash
      · rcases hc with rfl | rfl <;> exact absurd h (by simp [atSeparator])
      · exact hne hslash

/-- Escaping twice is escaping once. -/
theorem escapeHtml_idem (n : ℕ) {bs : Bytes} (hn : bs.length ≤ n) :
    escapeHtml (escapeHtml bs) = escapeHtml bs := by
  induction n generalizing bs with
  | zero =>
    obtain rfl := List.length_eq_zero_iff.1 (Nat.le_zero.1 hn)
    rfl
  | succ n ih =>
    match bs with
    | [] => rfl
    | b :: bs =>
      have hbackslash : isInert (byte '\\') := by decide
      have hletter : isInert (byte 'u') := by decide
      have hzero : isInert (byte '0') := by decide
      have htwo : isInert (byte '2') := by decide
      rw [List.length_cons] at hn
      cases hsep : atSeparator (b :: bs) with
      | true =>
        obtain ⟨c, rest, hc, heq⟩ := atSeparator_cases hsep
        obtain ⟨d, hd, hescape, -⟩ := separatorEscape_eq hc
        obtain ⟨rfl, rfl⟩ := List.cons.inj heq
        simp only [List.length_cons] at hn
        rw [escapeHtml_separator hc, hescape]
        simp only [List.cons_append, List.nil_append]
        rw [escapeHtml_inert hbackslash, escapeHtml_inert hletter, escapeHtml_inert htwo,
          escapeHtml_inert hzero, escapeHtml_inert htwo, escapeHtml_inert (isInert_hexDigit hd),
          ih (by omega)]
      | false =>
        rw [escapeHtml_cons hsep]
        cases hhtml : isHtml b with
        | false =>
          rw [byteEscape_of_not_html hhtml, List.singleton_append,
            escapeHtml_cons (atSeparator_escapeHtml hsep), byteEscape_of_not_html hhtml,
            ih (by omega), List.singleton_append]
        | true =>
          obtain ⟨d₁, d₂, hd₁, hd₂, hescape, -⟩ := byteEscape_eq hhtml
          rw [hescape]
          simp only [List.cons_append, List.nil_append]
          rw [escapeHtml_inert hbackslash, escapeHtml_inert hletter, escapeHtml_inert hzero,
            escapeHtml_inert hzero, escapeHtml_inert (isInert_hexDigit hd₁),
            escapeHtml_inert (isInert_hexDigit hd₂), ih (by omega)]

end BitcoinRpcOperator.RpcRequests
