import Mathlib
import BitcoinRpcOperator.RedactionPatterns

/-!
# Texts that redaction leaves alone

Every match captures pieces of the text it stands in. Where no sensitive key is spelled by
the letters and digits of a text, none is spelled by a piece of it, so the substitutions that
find something put back what they found, and the others find nothing.
-/

namespace BitcoinRpcOperator.Redaction
open Text Backtracking PythonValues

/-- The letters and digits of an ASCII text, in lower case. -/
def alphanumerics (s : Str) : Str := (s.filter Char.isAlphanum).map Char.toLower

/-- An ASCII text without brackets or URLs, in whose letters and digits no part of a
sensitive key is spelled. -/
structure Innocuous (s : Str) : Prop where
  ascii : ∀ c ∈ s, c.toNat < 128
  noBrace : '\x7b' ∉ s
  noBracket : '[' ∉ s
  noUrl : ¬ "://".toList <:+: s
  noKey : ∀ part ∈ sensitiveKeyParts, ¬ part <:+: alphanumerics s

theorem occursIn_iff (part s : Str) : occursIn part s ↔ part <:+: s := by
  induction s with
  | nil => simp [occursIn]
  | cons c s ih =>
    rw [occursIn, Bool.or_eq_true, List.isPrefixOf_iff_prefix, ih, List.infix_cons_iff]

theorem foldChar_ascii {c : Char} (h : c.toNat < 128) :
    foldChar c = if c.isAlphanum then [c.toLower] else [] := by
  have hfold : ∀ f ∈ foldings, 128 ≤ f.1 := by decide
  have hnone : foldings.find? (fun f => f.1 == c.toNat) = none := by
    rw [List.find?_eq_none]
    intro f hf heq
    have hle := hfold f hf
    have hsame : f.1 = c.toNat := eq_of_beq heq
    omega
  rw [foldChar, hnone]
  rfl

theorem flatMap_foldChar {s : Str} (h : ∀ c ∈ s, c.toNat < 128) : s.flatMap foldChar = alphanumerics s := by
  induction s with
  | nil => rfl
  | cons c s ih =>
    rw [List.forall_mem_cons] at h
    rw [List.flatMap_cons, foldChar_ascii h.1, ih h.2]
    cases hc : c.isAlphanum with
    | true => simp [alphanumerics, hc]
    | false => simp [alphanumerics, hc]

theorem alphanumerics_within {key s : Str} (h : key <:+: s) : alphanumerics key <:+: alphanumerics s :=
  (h.filter Char.isAlphanum).map Char.toLower

theorem Innocuous.key {s key : Str} (hs : Innocuous s) (h : key <:+: s) : keyIsSensitive key = false := by
  rw [keyIsSensitive, List.any_eq_false]
  intro part hpart hoccurs
  rw [flatMap_foldChar fun c hc => hs.ascii c (h.subset hc), occursIn_iff] at hoccurs
  exact hs.noKey part hpart (hoccurs.trans (alphanumerics_within h))

theorem isAlphanum_toLower (c : Char) : c.toLower.isAlphanum = c.isAlphanum := by
  by_cases h : c.isUpper
  · simp [Char.isAlphanum, Char.isAlpha, h]
  · rw [Char.toLower_eq_of_not_isUpper h]

/-- An announcing word of an innocuous text spells no part of a key. -/
theorem Spells.alphanumerics_eq {w : String} {t : Str} (h : Spells w t) (ht : ∀ c ∈ t, c.toNat < 128) :
    alphanumerics t = w.toList.filter Char.isAlphanum := by
  unfold Spells at h
  generalize w.toList = cs at h ⊢
  induction h with
  | nil => rfl
  | @cons c x cs t hx _ ih =>
    rw [List.forall_mem_cons] at ht
    have hlower : x.toLower = c := by
      have hne : x.toNat ≠ 0x130 ∧ x.toNat ≠ 0x131 ∧ x.toNat ≠ 0x17f ∧ x.toNat ≠ 0x212a := by
        have hlt := ht.1
        omega
      simpa [letter, hne] using hx
    have hsame : c.isAlphanum = x.isAlphanum := by rw [← hlower, isAlphanum_toLower]
    cases halnum : x.isAlphanum with
    | true => simpa [alphanumerics, halnum, hsame, hlower] using ih ht.2
    | false => simpa [alphanumerics, halnum, hsame] using ih ht.2

theorem Innocuous.no_word {s t : Str} (hs : Innocuous s) {w : String} (h : Spells w t) (ht : t <:+: s) :
    w.toList.filter Char.isAlphanum ∉ sensitiveKeyParts := by
  rw [← h.alphanumerics_eq fun c hc => hs.ascii c (ht.subset hc)]
  exact fun hpart => hs.noKey _ hpart (alphanumerics_within ht)

section
variable {lib : Library} {s : Str}

theorem keep_found {key : ℕ} {d : Cursor} (h : keyIsSensitive (d.captured key) = false) (groups : List ℕ)
    (a : Str) : keep groups key a d = a := by
  rw [keep, h]
  rfl

theorem Innocuous.keeps (hs : Innocuous s) {r : Pattern} (hr : Advances r) (groups : List ℕ) (key : ℕ) :
    sub r (keep groups key) s = s :=
  (substitutes_subFrom hr (keep groups key) [] s).same fun ht h =>
    keep_found (hs.key ((captured_within h key).trans ht.isInfix)) groups

theorem sub_without {r : Pattern} (hr : Advances r) (f : Str → Cursor → Str)
    (h : ∀ {passed t d}, t <:+ s → matchAt r ⟨passed, t, []⟩ ≠ some d) : sub r f s = s :=
  (substitutes_subFrom hr f [] s).same fun ht hmatch => absurd hmatch (h ht)

theorem Innocuous.redactUrls (hs : Innocuous s) : redactUrls lib s = s := by
  apply sub_without (advances_of_consumes rfl)
  intro passed t d ht h
  obtain ⟨scheme, info, -, -, -, ⟨hrest, -⟩, -⟩ := urlPattern_match h
  have hurl : "://".toList <:+: t := ⟨scheme, info ++ ['@'] ++ d.rest, by simpa using hrest.symm⟩
  exact hs.noUrl (hurl.trans ht.isInfix)

/-- A match of the authorization pattern starts with that word. -/
theorem authorizationPattern_word {c d : Cursor} (h : matchAt (authorizationPattern lib) c = some d) :
    ∃ w, Spells "authorization" w ∧ w <+: c.rest := by
  obtain ⟨m, hm, -⟩ := matchAt_sound h
  obtain ⟨n, ⟨k, ⟨-, hk⟩, k', hword, -⟩, -⟩ := matches_group hm
  obtain ⟨w, hw, ⟨hrest, -⟩, -⟩ := matches_word hword
  rw [hk] at hrest
  exact ⟨w, hw, k'.rest, hrest.symm⟩

theorem Innocuous.redactAuthorization (hs : Innocuous s) : redactAuthorization lib s = s := by
  apply sub_without (advances_of_consumes rfl)
  intro passed t d ht h
  obtain ⟨w, hw, hrest⟩ := authorizationPattern_word h
  exact hs.no_word hw (hrest.isInfix.trans ht.isInfix) (by decide)

theorem Innocuous.redactKeywords (hs : Innocuous s) : redactKeywords lib s = s := by
  apply sub_without (advances_of_consumes rfl)
  intro passed t d ht h
  obtain ⟨w, gap, sep, gap', u, tail, ⟨v, hv, hw⟩, -, -, -, -, -, -, -, -, -, ⟨hrest, -⟩, -⟩ := keywordPattern_match h
  have hword : w <:+: t := ⟨[], gap ++ sep ++ gap' ++ u ++ d.rest, by simpa using hrest.symm⟩
  have hpart : ∀ v ∈ ["password", "secret", "token", "credential", "cookie", "rpcauth", "rpcuser", "private key"],
      v.toList.filter Char.isAlphanum ∈ sensitiveKeyParts := by decide
  exact hs.no_word hw (hword.trans ht.isInfix) (hpart v hv)

theorem Innocuous.redactText (hs : Innocuous s) : redactText lib s = s := by
  have hheaders : redactHeaders s = s := hs.keeps (advances_of_consumes rfl) [1] 2
  have hflags : redactFlags s = s := hs.keeps (advances_of_consumes rfl) [1, 2, 3] 2
  have hqueries : redactQueries s = s := hs.keeps (advances_of_consumes rfl) [1, 2, 3] 2
  have hassignments : redactAssignments s = s := hs.keeps (advances_of_consumes rfl) [1, 2] 1
  rw [Redaction.redactText, hs.redactUrls, hheaders, hs.redactAuthorization, hflags, hqueries, hassignments,
    hs.redactKeywords]

/-- Redaction leaves innocuous texts alone. -/
theorem redactRuntimeValue_innocuous (hs : Innocuous s) : redactRuntimeValue lib s = .ok s := by
  have hplain : ∀ c ∈ s, isOpener c = false := by
    intro c hc
    rw [isOpener, Bool.or_eq_false_iff, beq_eq_false_iff_ne, beq_eq_false_iff_ne]
    constructor
    · rintro rfl
      exact hs.noBrace hc
    · rintro rfl
      exact hs.noBracket hc
  rw [redactRuntimeValue_plain hplain, hs.redactText]

end

/-- An option, a header and an assignment match, with keys that are not sensitive. -/
def helpLine : Str := "X: --rpcbind=127.0.0.1 --verbose yes a = b?c=d".toList

theorem innocuous_helpLine : Innocuous helpLine where
  ascii := by decide
  noBrace := by decide
  noBracket := by decide
  noUrl := by decide
  noKey := by decide

theorem helpLine_stays : redactRuntimeValue readsNothing helpLine = .ok helpLine :=
  redactRuntimeValue_innocuous innocuous_helpLine

end BitcoinRpcOperator.Redaction
