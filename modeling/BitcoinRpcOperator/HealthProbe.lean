import BitcoinRpcOperator.ErrorReplies
import BitcoinRpcOperator.ProxyConfiguration

/-!
# The height in an answer to the probe

`parseHeight` of `internal/upstream/poller.go` with what `json.Unmarshal` does for it: members
whose name matches `result` up to case are decoded one after the other into the same pointer,
and any of them that is no 64-bit integer makes the whole an error.
-/

namespace BitcoinRpcOperator.HealthProbe
open Text JsonText RpcRequests ProxyConfiguration

/-- The characters of a text without runes beyond ASCII. -/
def characters (raw : Bytes) : Str := raw.map fun b => Char.ofNat b.toNat

def IsInt64 (n : ℤ) : Prop := -2 ^ 63 ≤ n ∧ n < 2 ^ 63

instance (n : ℤ) : Decidable (IsInt64 n) := inferInstanceAs (Decidable (_ ∧ _))

/-- `strconv.FormatInt` in base ten. -/
def formatInt (n : ℤ) : Str :=
  if n < 0 then '-' :: Nat.toDigits 10 n.natAbs else Nat.toDigits 10 n.natAbs

theorem digit_ascii {c : Char} (h : c.isDigit) : c.toNat < 128 := by
  have hbound := (Char.isDigit_iff_toNat.1 h).2
  have hnine : '9'.toNat = 57 := rfl
  omega

theorem encoded_ascii : ∀ n < 128, String.utf8EncodeChar (Char.ofNat n) = [n.toUInt8] ∧
    n.toUInt8.toNat = n := by decide +kernel

theorem utf8_ascii {s : Str} (h : ∀ c ∈ s, c.toNat < 128) : utf8 s = s.map byte := by
  induction s with
  | nil => rfl
  | cons c s ih =>
    rw [List.forall_mem_cons] at h
    have hone := (encoded_ascii c.toNat h.1).1
    rw [Char.ofNat_toNat] at hone
    rw [utf8, List.flatMap_cons, hone, List.map_cons, ← utf8, ih h.2]
    rfl

theorem characters_utf8 {s : Str} (h : ∀ c ∈ s, c.toNat < 128) : characters (utf8 s) = s := by
  rw [utf8_ascii h, characters, List.map_map]
  conv_rhs => rw [← List.map_id s]
  apply List.map_congr_left
  intro c hc
  have hback := (encoded_ascii c.toNat (h c hc)).2
  change Char.ofNat c.toNat.toUInt8.toNat = c
  rw [hback, Char.ofNat_toNat]

theorem digits_ascii {s : Str} (h : ∀ c ∈ s, c.isDigit) : ∀ c ∈ s, c.toNat < 128 :=
  fun c hc => digit_ascii (h c hc)

theorem isDigit_toDigits (n : ℕ) : ∀ c ∈ Nat.toDigits 10 n, c.isDigit :=
  fun _ hc => Nat.isDigit_of_mem_toDigits (by decide) (by decide) hc

theorem formatInt_ascii (n : ℤ) : ∀ c ∈ formatInt n, c.toNat < 128 := by
  have hdigits := digits_ascii (isDigit_toDigits n.natAbs)
  rw [formatInt]
  split
  · rw [List.forall_mem_cons]
    exact ⟨by decide, hdigits⟩
  · exact hdigits

theorem parseDigits_toDigits (n : ℕ) : parseDigits (Nat.toDigits 10 n) = some n := by
  have hdigits : (Nat.toDigits 10 n).all Char.isDigit = true :=
    List.all_eq_true.2 (isDigit_toDigits n)
  rw [parseDigits, if_pos ⟨Nat.toDigits_ne_nil, hdigits⟩]
  have hvalue := Nat.ofDigitChars_ten_toDigits (n := n)
  rw [Nat.ofDigitChars_eq_foldl] at hvalue
  rw [Option.some.injEq]
  exact hvalue

theorem head_toDigits (n : ℕ) : ∃ c rest, Nat.toDigits 10 n = c :: rest ∧ c.isDigit := by
  obtain ⟨c, rest, heq⟩ := List.exists_cons_of_ne_nil (Nat.toDigits_ne_nil (n := n) (b := 10))
  exact ⟨c, rest, heq, isDigit_toDigits n c (by simp [heq])⟩

/-- A 64-bit integer is read back from its numeral. -/
theorem parseInt64_formatInt {n : ℤ} (h : IsInt64 n) : parseInt64 (formatInt n) = some n := by
  have hfilter : (some n).filter (fun n : ℤ => -2 ^ 63 ≤ n ∧ n < 2 ^ 63) = some n := by
    rw [Option.filter_some, if_pos (decide_eq_true (show _ ∧ _ from h))]
  by_cases hn : n < 0
  · rw [formatInt, if_pos hn, parseInt64]
    have hvalue : -(n.natAbs : ℤ) = n := by omega
    simp only [parseDigits_toDigits, Option.bind_eq_bind, Option.bind_some, Option.pure_def,
      Option.map_some, hvalue]
    exact hfilter
  · obtain ⟨c, rest, heq, hc⟩ := head_toDigits n.natAbs
    have hminus : c ≠ '-' := by
      rintro rfl
      exact absurd hc (by decide)
    have hplus : c ≠ '+' := by
      rintro rfl
      exact absurd hc (by decide)
    have hvalue : (n.natAbs : ℤ) = n := by omega
    rw [formatInt, if_neg hn, parseInt64]
    · simp only [parseDigits_toDigits, Option.bind_eq_bind, Option.bind_some, Option.pure_def,
        Option.map_some, hvalue]
      exact hfilter
    · intro digits h
      exact hminus (List.cons.inj (heq.symm.trans h)).1
    · intro digits h
      exact hplus (List.cons.inj (heq.symm.trans h)).1

theorem digits_bytes : ∀ n < 128, (Char.ofNat n).isDigit →
    JsonText.isDigit (byte (Char.ofNat n)) = true ∧ (byte (Char.ofNat n) == byte '-') = false ∧
      (byte (Char.ofNat n) = byte '0' → n = '0'.toNat) := by decide +kernel

theorem digit_byte {c : Char} (h : c.isDigit) : JsonText.isDigit (byte c) = true ∧
    (byte c == byte '-') = false ∧ (byte c = byte '0' → c = '0') := by
  have hbytes := digits_bytes c.toNat (digit_ascii h)
  rw [Char.ofNat_toNat] at hbytes
  obtain ⟨hdigit, hminus, hzero⟩ := hbytes h
  exact ⟨hdigit, hminus, fun heq => Char.toNat_inj.1 (hzero heq)⟩

/-- A numeral is zero, or it starts with another digit. -/
theorem leading_toDigits (n : ℕ) : Nat.toDigits 10 n = ['0'] ∨
    ∃ c rest, Nat.toDigits 10 n = c :: rest ∧ c ≠ '0' := by
  induction n using Nat.strong_induction_on with
  | _ n ih =>
    by_cases hsmall : n < 10
    · rw [Nat.toDigits_of_lt_base hsmall]
      by_cases hzero : n = 0
      · exact .inl (by rw [hzero]; rfl)
      · refine .inr ⟨_, [], rfl, ?_⟩
        interval_cases n <;> first | exact absurd rfl hzero | decide
    · rw [Nat.toDigits_of_base_le (by decide) (by omega)]
      rcases ih (n / 10) (by omega) with hzero | ⟨c, rest, heq, hc⟩
      · have hvalue := Nat.ofDigitChars_ten_toDigits (n := n / 10)
        rw [hzero] at hvalue
        have hnone : n / 10 = 0 := hvalue.symm.trans (by decide)
        omega
      · exact .inr ⟨c, rest ++ [(n % 10).digitChar], by rw [heq]; rfl, hc⟩

theorem next_digits {s : Str} (h : ∀ c ∈ s, c.isDigit) :
    (s.map byte).foldlM NumberPhase.next .integer = some .integer := by
  induction s with
  | nil => rfl
  | cons c s ih =>
    rw [List.forall_mem_cons] at h
    have hnext : NumberPhase.next .integer (byte c) = some .integer := by
      rw [NumberPhase.next, if_pos (digit_byte h.1).1]
    rw [List.map_cons, List.foldlM_cons, hnext]
    exact ih h.2

/-- The numeral of a natural number, read from its first byte or after a sign. -/
theorem numeral_phases (n : ℕ) : ∃ b rest first last,
    (Nat.toDigits 10 n).map byte = b :: rest ∧ NumberPhase.start b = some first ∧
      NumberPhase.next .minus b = some first ∧ rest.foldlM NumberPhase.next first = some last ∧
      last.complete := by
  rcases leading_toDigits n with hzero | ⟨c, rest, heq, hc⟩
  · exact ⟨byte '0', [], .zero, .zero, by rw [hzero]; rfl, rfl, rfl, rfl, rfl⟩
  · have hdigits := isDigit_toDigits n
    rw [heq, List.forall_mem_cons] at hdigits
    obtain ⟨hdigit, hminus, hzero⟩ := digit_byte hdigits.1
    have hnot : (byte c == byte '0') = false := by
      rw [beq_eq_false_iff_ne]
      exact fun h => hc (hzero h)
    refine ⟨byte c, rest.map byte, .integer, .integer, by rw [heq]; rfl, ?_, ?_,
      next_digits hdigits.2, rfl⟩
    · simp [NumberPhase.start, hminus, hnot, hdigit]
    · simp [NumberPhase.next, hnot, hdigit]

theorem formatInt_number (n : ℤ) : NumberLexeme (utf8 (formatInt n)) := by
  obtain ⟨b, rest, first, last, hbytes, hstart, hminus, hlast, hcomplete⟩ := numeral_phases n.natAbs
  rw [utf8_ascii (formatInt_ascii n), formatInt]
  split
  · refine ⟨last, ⟨byte '-', b :: rest, .minus, by rw [List.map_cons, hbytes], rfl, ?_⟩, hcomplete⟩
    rw [List.foldlM_cons, hminus]
    exact hlast
  · exact ⟨last, ⟨b, rest, first, hbytes, hstart, hlast⟩, hcomplete⟩

def heightUnknown : ℤ := -1

/-- A `*int64` decoded from a value; `none` is an error. -/
def decodeInt64 : Json → Option (Option ℤ)
  | .null => some none
  | .number raw => (parseInt64 (characters raw)).map some
  | .bool _ | .string _ | .array _ | .object _ => none

/-- Whether a member is decoded into the field called `name`. -/
def isField (name : Str) (m : Bytes × Json) : Bool := foldName (unquote m.1) == foldName name

/-- What the members leave in a pointer that starts out as `acc`. -/
def decodeMembers (name : Str) (acc : Option ℤ) (ms : List (Bytes × Json)) : Option (Option ℤ) :=
  (ms.filter (isField name)).foldlM (fun _ m => decodeInt64 m.2) acc

/-- `json.Unmarshal` into a `heightResult`. -/
def unmarshalHeight (body : Bytes) : Option (Option ℤ) :=
  match JsonText.parse maxNestingDepth body with
  | some .null => some none
  | some (.object ms) => decodeMembers "result".toList none ms
  | _ => none

def parseHeight (body : Bytes) : ℤ := ((unmarshalHeight body).bind id).getD heightUnknown

/-- A member that `decodeMembers` can take. -/
def Decodes (v : Json) : Prop := v = .null ∨ ∃ raw n, v = .number raw ∧ parseInt64 (characters raw) = some n

theorem decodes_iff (v : Json) : Decodes v ↔ (decodeInt64 v).isSome := by
  cases v with
  | null => exact iff_of_true (.inl rfl) rfl
  | number raw =>
    rw [decodeInt64, Option.isSome_map, Option.isSome_iff_exists]
    constructor
    · rintro (h | ⟨raw', n, h, hn⟩)
      · cases h
      · obtain rfl := Json.number.inj h
        exact ⟨n, hn⟩
    · rintro ⟨n, hn⟩
      exact .inr ⟨raw, n, rfl, hn⟩
  | bool _ | string _ | array _ | object _ =>
    refine iff_of_false ?_ (by simp [decodeInt64])
    rintro (h | ⟨raw, n, h, -⟩) <;> cases h

section
variable {name : Str} {acc r : Option ℤ} {m : Bytes × Json} {ms : List (Bytes × Json)}

theorem structField_cons : structField name (m :: ms) =
    (structField name ms).or (if isField name m then some m.2 else none) := by
  simp only [structField, List.findRev?, isField]
  cases ms.findRev? fun m => foldName (unquote m.1) == foldName name with
  | some found => rfl
  | none => by_cases hm : (foldName (unquote m.1) == foldName name) = true <;> simp [hm]

theorem decodeMembers_cons : decodeMembers name acc (m :: ms) =
    if isField name m then (decodeInt64 m.2).bind fun acc => decodeMembers name acc ms
    else decodeMembers name acc ms := by
  rw [decodeMembers, List.filter_cons]
  split <;> rfl

/-- All matching members have to decode, and the last of them counts. -/
theorem decodeMembers_iff : decodeMembers name acc ms = some r ↔
    (∀ m ∈ ms, isField name m = true → Decodes m.2) ∧
      (match structField name ms with
        | none => r = acc
        | some v => decodeInt64 v = some r) := by
  induction ms generalizing acc with
  | nil =>
    simp only [List.not_mem_nil, false_implies, implies_true, true_and]
    exact ⟨fun h => (Option.some.inj h).symm, fun h => congrArg some (Eq.symm h)⟩
  | cons m ms ih =>
    rw [decodeMembers_cons, structField_cons, List.forall_mem_cons]
    cases hm : isField name m with
    | false =>
      simp only [Bool.false_eq_true, if_false, ih, false_implies, true_and, Option.or_none]
    | true =>
      simp only [if_true, true_implies, Option.bind_eq_some_iff, ih, decodes_iff m.2,
        Option.isSome_iff_exists]
      cases structField name ms with
      | none =>
        simp only [Option.none_or]
        constructor
        · rintro ⟨acc', hfirst, hall, rfl⟩
          exact ⟨⟨⟨_, hfirst⟩, hall⟩, hfirst⟩
        · rintro ⟨⟨-, hall⟩, hlast⟩
          exact ⟨r, hlast, hall, rfl⟩
      | some v =>
        simp only [Option.some_or]
        constructor
        · rintro ⟨acc', hfirst, hall, hlast⟩
          exact ⟨⟨⟨_, hfirst⟩, hall⟩, hlast⟩
        · rintro ⟨⟨⟨acc', hfirst⟩, hall⟩, hlast⟩
          exact ⟨acc', hfirst, hall, hlast⟩

theorem structField_append (ns : List (Bytes × Json)) : structField name (ms ++ ns) =
    (structField name ns).or (structField name ms) := by
  induction ms with
  | nil => exact (Option.or_none).symm
  | cons m ms ih => rw [List.cons_append, structField_cons, ih, structField_cons, Option.or_assoc]

/-- Members that are no field leave everything as it is. -/
theorem structField_none (h : ∀ m ∈ ms, isField name m = false) : structField name ms = none := by
  induction ms with
  | nil => rfl
  | cons m ms ih =>
    rw [List.forall_mem_cons] at h
    rw [structField_cons, ih h.2, h.1]
    rfl

end

theorem parseInt64_isInt64 {s : Str} {n : ℤ} (h : parseInt64 s = some n) : IsInt64 n := by
  have hfilter := (Option.filter_eq_some_iff.1 h).2
  exact of_decide_eq_true hfilter

theorem unmarshalHeight_iff {body : Bytes} {n : ℤ} : unmarshalHeight body = some (some n) ↔
    ∃ ms raw, JsonText.parse maxNestingDepth body = some (.object ms) ∧
      (∀ m ∈ ms, isField "result".toList m = true → Decodes m.2) ∧
      structField "result".toList ms = some (.number raw) ∧ parseInt64 (characters raw) = some n := by
  unfold unmarshalHeight
  split
  · next hparse =>
    rw [hparse]
    exact iff_of_false nofun (by rintro ⟨ms, raw, h, -⟩; cases h)
  · next ms hparse =>
    rw [hparse, decodeMembers_iff]
    constructor
    · rintro ⟨hall, hlast⟩
      cases hfield : structField "result".toList ms with
      | none =>
        rw [hfield] at hlast
        cases hlast
      | some v =>
        have hvalue : decodeInt64 v = some (some n) := by simpa only [hfield] using hlast
        cases v with
        | number raw =>
          rw [decodeInt64, Option.map_eq_some_iff] at hvalue
          obtain ⟨k, hk, hkn⟩ := hvalue
          exact ⟨ms, raw, rfl, hall, hfield, hk.trans hkn⟩
        | null | bool _ | string _ | array _ | object _ => cases hvalue
    · rintro ⟨ms', raw, hms, hall, hfield, hn⟩
      obtain rfl := Json.object.inj (Option.some.inj hms)
      refine ⟨hall, ?_⟩
      rw [hfield]
      simp only [decodeInt64, hn, Option.map_some]
  · next hnull hobject =>
    refine iff_of_false nofun ?_
    rintro ⟨ms, raw, h, -⟩
    exact hobject ms h

theorem parseHeight_eq_iff {body : Bytes} {n : ℤ} (hn : n ≠ heightUnknown) :
    parseHeight body = n ↔ unmarshalHeight body = some (some n) := by
  rw [parseHeight]
  cases unmarshalHeight body with
  | none => exact iff_of_false (fun h => hn h.symm) nofun
  | some height =>
    cases height with
    | none => exact iff_of_false (fun h => hn h.symm) nofun
    | some k => simp

/-- A height is found exactly in an object whose members named `result`, up to case, are all null
or 64-bit integers, and then it is the last of them. -/
theorem parseHeight_iff (body : Bytes) {n : ℤ} (hn : n ≠ heightUnknown) : parseHeight body = n ↔
    ∃ ms raw, JsonText.parse maxNestingDepth body = some (.object ms) ∧
      (∀ m ∈ ms, isField "result".toList m = true → Decodes m.2) ∧
      structField "result".toList ms = some (.number raw) ∧ parseInt64 (characters raw) = some n :=
  (parseHeight_eq_iff hn).trans unmarshalHeight_iff

/-- A reply that names `result` twice, once in capitals. -/
def twoResults : Bytes := utf8 "\x7b\"RESULT\":7,\"result\":901234\x7d".toList

theorem parse_twoResults : JsonText.parse maxNestingDepth twoResults =
    some (.object [(utf8 "RESULT".toList, .number (utf8 "7".toList)),
      (utf8 "result".toList, .number (utf8 "901234".toList))]) := by
  rfl

theorem parseHeight_iff_twoResults : parseHeight twoResults = 901234 := by
  refine (parseHeight_iff twoResults (by decide)).2 ⟨_, _, parse_twoResults, ?_, rfl, by decide +kernel⟩
  intro m hm _
  simp only [List.mem_cons, List.not_mem_nil, or_false] at hm
  rcases hm with rfl | rfl
  · exact .inr ⟨_, 7, rfl, by decide +kernel⟩
  · exact .inr ⟨_, 901234, rfl, by decide +kernel⟩

theorem isField_escaped {name : Str} {m : Bytes × Json} (h : StringLexeme m.1) (v : Json) :
    isField name (escapeHtml m.1, v) = isField name m := by
  rw [isField, isField, unquote_escapeHtml h]

theorem mapMembers_eq_map (f : Bytes → Bytes) (ms : List (Bytes × Json)) :
    Json.mapMembers f ms = ms.map fun m => (f m.1, m.2.mapStrings f) := by
  induction ms with
  | nil => rfl
  | cons m ms ih => rw [Json.mapMembers, ih, List.map_cons]

theorem result_field (v : Json) : isField "result".toList (utf8 "result".toList, v) = true := by
  rw [isField, result_readsBack.2, beq_self_eq_true]

/-- The number under `result` is read back, whatever else a reply holds. -/
theorem parseHeight_reply {before after : List (Bytes × Json)} {n : ℤ}
    (hn : IsInt64 n) (hothers : ∀ m ∈ before ++ after, isField "result".toList m = false)
    (hfits : Fits maxNestingDepth 0 (.object
      (before ++ (utf8 "result".toList, .number (utf8 (formatInt n))) :: after))) :
    parseHeight (marshal (.object
      (before ++ (utf8 "result".toList, .number (utf8 (formatInt n))) :: after))) = n := by
  have hlexemes := Json.membersWellFormed_iff.1 hfits.1
  have hkept : ∀ m ∈ before ++ after,
      isField "result".toList (escapeHtml m.1, m.2.mapStrings escapeHtml) = false := by
    intro m hm
    have hmem : m ∈ before ++ (utf8 "result".toList, .number (utf8 (formatInt n))) :: after := by
      rw [List.mem_append, List.mem_cons]
      rcases List.mem_append.1 hm with hm | hm
      · exact .inl hm
      · exact .inr (.inr hm)
    exact (isField_escaped (hlexemes m hmem).1 _).trans (hothers m hm)
  rw [List.forall_mem_append] at hkept
  have hmapped : ∀ ms : List (Bytes × Json),
      (∀ m ∈ ms, isField "result".toList (escapeHtml m.1, m.2.mapStrings escapeHtml) = false) →
        ∀ m ∈ Json.mapMembers escapeHtml ms, isField "result".toList m = false := by
    intro ms h m hm
    rw [mapMembers_eq_map, List.mem_map] at hm
    obtain ⟨k, hk, rfl⟩ := hm
    exact h k hk
  have hname : escapeHtml (utf8 "result".toList) = utf8 "result".toList := by decide +kernel
  have hmembers : Json.mapMembers escapeHtml
      (before ++ (utf8 "result".toList, .number (utf8 (formatInt n))) :: after) =
        Json.mapMembers escapeHtml before ++
          (utf8 "result".toList, .number (utf8 (formatInt n))) :: Json.mapMembers escapeHtml after := by
    simp only [mapMembers_eq_map, List.map_append, List.map_cons, hname, Json.mapStrings]
  have hnumeral : parseInt64 (characters (utf8 (formatInt n))) = some n := by
    rw [characters_utf8 (formatInt_ascii n), parseInt64_formatInt hn]
  have hread : unmarshalHeight (marshal (.object
      (before ++ (utf8 "result".toList, .number (utf8 (formatInt n))) :: after))) = some (some n) := by
    rw [unmarshalHeight_iff, parse_marshal hfits, Json.mapStrings, hmembers]
    refine ⟨_, _, rfl, ?_, ?_, hnumeral⟩
    · intro m hm hfield
      rcases List.mem_append.1 hm with hm | hm
      · exact absurd (hfield.symm.trans (hmapped before hkept.1 m hm)) (by decide)
      rcases List.mem_cons.1 hm with rfl | hm
      · exact .inr ⟨_, n, rfl, hnumeral⟩
      · exact absurd (hfield.symm.trans (hmapped after hkept.2 m hm)) (by decide)
    · rw [structField_append, structField_cons, structField_none (hmapped after hkept.2),
        if_pos (result_field _)]
      rfl
  rw [parseHeight, hread]
  rfl

end BitcoinRpcOperator.HealthProbe
