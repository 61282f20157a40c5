import BitcoinRpcOperator.MetadataFailures
import BitcoinRpcOperator.PatternMatches

/-!
# The CPU quota of the unit

What `get_systemd_limits` makes of the time spans that `systemctl show` prints: a span is a
sequence of components in units of descending size, and the pattern of
`_timespan_microseconds` reads a single one. The number, the product and the quotient are floats,
each of them rounded.
-/

namespace BitcoinRpcOperator.CpuQuota
open Text Backtracking PythonValues EffectiveFlags MetadataCollection BinaryFloats FloatText

inductive TimeUnit where
  | hour | minute | second | millisecond | microsecond
  deriving DecidableEq, Repr

namespace TimeUnit

def name : TimeUnit → Str
  | hour => "h".toList
  | minute => "min".toList
  | second => "s".toList
  | millisecond => "ms".toList
  | microsecond => "us".toList

def micros : TimeUnit → ℕ
  | hour => 3600000000
  | minute => 60000000
  | second => 1000000
  | millisecond => 1000
  | microsecond => 1

end TimeUnit

/-- A time span: components in units of descending size, of which the last may have digits
behind a decimal point. -/
structure Timespan where
  leading : List (ℕ × TimeUnit)
  whole : ℕ
  fraction : Str
  unit : TimeUnit
  descending : (leading.map (·.2.micros) ++ [unit.micros]).Pairwise (· > ·)
  digits : ∀ c ∈ fraction, c.isDigit

namespace Timespan

variable (t : Timespan)

def number : Str :=
  Nat.toDigits 10 t.whole ++ if t.fraction.isEmpty then [] else '.' :: t.fraction

/-- What `systemctl show` prints. -/
def text : Str :=
  unwords (t.leading.map (fun part => Nat.toDigits 10 part.1 ++ part.2.name) ++ [t.number ++ t.unit.name])

def value : ℚ := t.whole + fractionValue t.fraction

def micros : ℚ :=
  (t.leading.map fun part => (part.1 * part.2.micros : ℚ)).sum + t.value * t.unit.micros

end Timespan

section
variable (lib : Library)

/-- The number and the unit in a span, if `_timespan_microseconds` finds them. -/
def quotaParts (value : Str) : Option (Str × Str) :=
  if casefold lib.beyond value = "infinity".toList then none
  else (fullmatch timespanPattern value).map fun m => (m.captured 1, m.captured 2)

theorem timespanMicroseconds_eq (value : Str) : timespanMicroseconds lib value =
    (quotaParts lib value).map fun part =>
      (Float64.ofRat (numberValue part.1)).map (· * multiplier part.2) := by
  rw [timespanMicroseconds, quotaParts]
  split_ifs with hinfinity
  · rfl
  · rw [Option.map_map]
    rfl

/-- A limit that is no quota: `infinity` or an unsigned number of 64 bits. -/
def IsLimit (value : Str) : Prop := value = "infinity".toList ∨ ∃ n < 2 ^ 64, value = Nat.toDigits 10 n

/-- `systemctl show` prints `value` for the quota. -/
def Shows (s : Surroundings) (value : Str) : Prop :=
  ∃ stdout, s.systemctlShow = .ok (0, stdout) ∧ property stdout "CPUQuotaPerSecUSec".toList = value ∧
    ∀ v ∈ MetadataFailures.limitValues stdout, IsLimit v

/-- `get_systemd_limits` reports this percentage, or no limit. -/
def Reports (s : Surroundings) (percent : Option Float64) : Prop :=
  ∃ limits, getSystemdLimits lib s = .ok (.dict limits) ∧
    entry "cpu_quota_percent".toList limits = percent.elim .none fun x => .float (reprFloat x)

/-- It reports the percentage of a quota of `q` microseconds per second, as a rational number. -/
def ReportsExactly (s : Surroundings) (q : ℚ) : Prop :=
  ∃ (x : ℚ) (isFloat : IsFloat64 x), Reports lib s (some (.finite x isFloat)) ∧ x = q / 10000

/-- The float for the percentage, with its three roundings. -/
def percentOf (value : ℚ) (unit : TimeUnit) : ℚ :=
  round64 (round64 (round64 value * unit.micros) / 10000)

end

theorem digit?_ascii {c : Char} (h : c.isDigit) : digit? c = some (c.toNat - 48) := by
  have hbound : 48 ≤ c.toNat ∧ c.toNat ≤ 57 := Char.isDigit_iff_toNat.1 h
  have hrange : (decide (0x30 ≤ c.toNat) && decide (c.toNat ≤ 0x30 + 9)) = true := by
    simp only [Bool.and_eq_true, decide_eq_true_eq]
    omega
  have hfind : (0x30 :: decimalZeros.tail).find? (fun z => z ≤ c.toNat && c.toNat ≤ z + 9) = some 0x30 :=
    List.find?_cons_of_pos hrange
  have hzeros : decimalZeros = 0x30 :: decimalZeros.tail := rfl
  rw [digit?, hzeros, hfind]
  rfl

theorem decimal_eq_ofDigitChars {s : Str} (h : ∀ c ∈ s, c.isDigit) (n : ℕ) :
    s.foldl (fun n c => 10 * n + (digit? c).getD 0) n = Nat.ofDigitChars 10 s n := by
  induction s generalizing n with
  | nil => rfl
  | cons c s ih =>
    rw [List.forall_mem_cons] at h
    rw [List.foldl_cons, ih h.2, digit?_ascii h.1]
    simp [Nat.ofDigitChars]

theorem isDigit_toDigits (n : ℕ) : ∀ c ∈ Nat.toDigits 10 n, c.isDigit :=
  fun _ hc => Nat.isDigit_of_mem_toDigits (by decide) (by decide) hc

theorem decimal_toDigits (n : ℕ) : decimal (Nat.toDigits 10 n) = n := by
  rw [decimal, decimal_eq_ofDigitChars (isDigit_toDigits n), Nat.ofDigitChars_ten_toDigits]

def isNumberChar (c : Char) : Bool := c.isDigit || c == '.'

theorem isNumberChar_number (t : Timespan) : ∀ c ∈ t.number, isNumberChar c := by
  rw [Timespan.number, List.forall_mem_append]
  constructor
  · intro c hc
    simp [isNumberChar, isDigit_toDigits t.whole c hc]
  · split_ifs
    · nofun
    · rw [List.forall_mem_cons]
      exact ⟨by decide, fun c hc => by simp [isNumberChar, t.digits c hc]⟩

theorem numberValue_number (t : Timespan) : numberValue t.number = t.value := by
  have hdigits : ∀ c ∈ Nat.toDigits 10 t.whole, (c == '.') = false := by
    intro c hc
    rw [beq_eq_false_iff_ne]
    rintro rfl
    exact absurd (isDigit_toDigits t.whole '.' hc) (by decide)
  rw [Timespan.number, numberValue, Timespan.value]
  cases hfraction : t.fraction with
  | nil =>
    rw [List.isEmpty_nil, if_pos rfl, List.append_nil, cutAt_none hdigits]
    have hempty : fractionValue [] = 0 := by simp [fractionValue, decimal]
    simp [hempty, decimal_toDigits]
  | cons c s =>
    rw [List.isEmpty_cons, if_neg (by decide), cutAt_append hdigits (by decide)]
    simp [decimal_toDigits]

theorem multiplier_name (u : TimeUnit) : multiplier u.name = u.micros := by
  cases u <;> simp [multiplier, TimeUnit.name, TimeUnit.micros]

def unitNames : List Str := ["us", "ms", "s", "min", "h"].map String.toList

theorem matches_unit {c d : Cursor} (h : Matches (.alts (unitNames.map Pattern.text)) c d) :
    ∃ u ∈ unitNames, c.Moved u d ∧ d.groups = c.groups := by
  rcases h with h | h | h | h | h
  all_goals exact ⟨_, by decide, matches_text h⟩

theorem matches_unit_run {u : Str} (hu : u ∈ unitNames) (passed s : Str) (gs : List (ℕ × Str)) :
    Matches (.alts (unitNames.map Pattern.text)) ⟨passed, u ++ s, gs⟩ ⟨u.reverse ++ passed, s, gs⟩ := by
  have hcases : u = "us".toList ∨ u = "ms".toList ∨ u = "s".toList ∨ u = "min".toList ∨ u = "h".toList := by
    simpa [unitNames] using hu
  rcases hcases with rfl | rfl | rfl | rfl | rfl
  · exact .inl (matches_text_run _ _ _ _)
  · exact .inr (.inl (matches_text_run _ _ _ _))
  · exact .inr (.inr (.inl (matches_text_run _ _ _ _)))
  · exact .inr (.inr (.inr (.inl (matches_text_run _ _ _ _))))
  · exact .inr (.inr (.inr (.inr (matches_text_run _ _ _ _))))

/-- A full match cuts the text into a number and a unit. -/
theorem timespanPattern_sound {s : Str} {m : Cursor} (h : fullmatch timespanPattern s = some m) :
    ∃ number unit, s = number ++ unit ∧ (∀ c ∈ number, isNumberChar c) ∧ (unit = [] ∨ unit ∈ unitNames) ∧
      m.captured 1 = number ∧ m.captured 2 = unit := by
  obtain ⟨⟨m₁, hnumber, m₂, hunit, rfl⟩, hend⟩ := fullmatch_sound h
  obtain ⟨n₁, ⟨k₁, hwhole, hfraction⟩, hgroup₁⟩ := matches_group hnumber
  obtain ⟨w, -, hw, hmoved, hgroups⟩ := matches_plus_char hwhole
  obtain ⟨f, hf, hmoved', hgroups'⟩ : ∃ f, (∀ c ∈ f, isNumberChar c) ∧ k₁.Moved f n₁ ∧ n₁.groups = k₁.groups := by
    rcases hfraction with ⟨k₂, hdot, hdigits⟩ | rfl
    · obtain ⟨hdotMoved, hdotGroups⟩ := matches_lit hdot
      obtain ⟨ds, -, hds, hdsMoved, hdsGroups⟩ := matches_plus_char hdigits
      refine ⟨'.' :: ds, ?_, hdotMoved.trans hdsMoved, hdsGroups.trans hdotGroups⟩
      rw [List.forall_mem_cons]
      exact ⟨by decide, fun c hc => by simp [isNumberChar, hds c hc]⟩
    · exact ⟨[], nofun, .refl _, rfl⟩
  obtain ⟨hfirst, hg₁⟩ := hgroup₁ _ (hmoved.trans hmoved')
  have hchars : ∀ c ∈ w ++ f, isNumberChar c := by
    rw [List.forall_mem_append]
    exact ⟨fun c hc => by simp [isNumberChar, hw c hc], hf⟩
  rcases hunit with hunit | rfl
  · obtain ⟨n₂, hname, hgroup₂⟩ := matches_group hunit
    obtain ⟨u, hu, huMoved, hug⟩ := matches_unit hname
    obtain ⟨hsecond, hg₂⟩ := hgroup₂ _ huMoved
    have hwhole := (hfirst.trans hsecond).1
    rw [hend, List.append_nil] at hwhole
    refine ⟨w ++ f, u, hwhole, hchars, .inr hu, ?_, ?_⟩
    · rw [Cursor.captured, hg₂, hug, hg₁]
      rfl
    · rw [Cursor.captured, hg₂]
      rfl
  · have hwhole := hfirst.1
    rw [hend] at hwhole
    refine ⟨w ++ f, [], hwhole, hchars, .inl rfl, ?_, ?_⟩
    · rw [Cursor.captured, hg₁]
      rfl
    · rw [Cursor.captured, hg₁, hgroups', hgroups]
      rfl

/-- A number is where the digits and points end. -/
theorem number_unique {a b u v : Str} (h : a ++ u = b ++ v) (ha : ∀ c ∈ a, isNumberChar c)
    (hb : ∀ c ∈ b, isNumberChar c) (hu : u.head?.any isNumberChar = false) (hv : v.head?.any isNumberChar = false) :
    a = b ∧ u = v := by
  obtain rfl : a = b := by rw [← takeWhile_stop ha hu, h, takeWhile_stop hb hv]
  exact ⟨rfl, List.append_cancel_left h⟩

theorem unit_head {u : Str} (h : u = [] ∨ u ∈ unitNames) : u.head?.any isNumberChar = false := by
  rcases h with rfl | h
  · rfl
  · have hall : ∀ u ∈ unitNames, u.head?.any isNumberChar = false := by decide
    exact hall u h

theorem name_mem (u : TimeUnit) : u.name ∈ unitNames := by cases u <;> decide

section
variable {lib : Library} {t : Timespan}

theorem toDigits_head (n : ℕ) : ∃ c rest, Nat.toDigits 10 n = c :: rest ∧ c.isDigit := by
  obtain ⟨c, rest, heq⟩ := List.exists_cons_of_ne_nil (Nat.toDigits_ne_nil (n := n) (b := 10))
  exact ⟨c, rest, heq, isDigit_toDigits n c (by simp [heq])⟩

theorem text_head (t : Timespan) : ∃ c rest, t.text = c :: rest ∧ c.isDigit := by
  rw [Timespan.text]
  cases t.leading with
  | nil =>
    obtain ⟨c, rest, heq, hc⟩ := toDigits_head t.whole
    rw [List.map_nil, List.nil_append, unwords_singleton, Timespan.number, heq]
    exact ⟨c, _, rfl, hc⟩
  | cons part parts =>
    obtain ⟨c, rest, heq, hc⟩ := toDigits_head part.1
    obtain ⟨u, us, hmore⟩ := List.exists_cons_of_ne_nil
      (List.concat_ne_nil (t.number ++ t.unit.name) (parts.map fun part => Nat.toDigits 10 part.1 ++ part.2.name))
    rw [List.map_cons, List.cons_append, hmore, unwords_cons_cons, heq]
    exact ⟨c, _, rfl, hc⟩

theorem casefold_text (t : Timespan) : casefold lib.beyond t.text ≠ "infinity".toList := by
  obtain ⟨c, rest, heq, hc⟩ := text_head t
  have hbound : 48 ≤ c.toNat ∧ c.toNat ≤ 57 := Char.isDigit_iff_toNat.1 hc
  intro hinfinity
  rw [heq, casefold, List.flatMap_cons, if_pos (by omega)] at hinfinity
  have hhead : c.toLower = 'i' := (List.cons.inj hinfinity).1
  have hlower : c.toLower = c := by
    apply Char.toLower_eq_of_not_isUpper
    intro hupper
    have hle : 'A'.toNat ≤ c.toNat := by
      rw [Char.isUpper, decide_eq_true_eq] at hupper
      exact UInt32.le_iff_toNat_le.1 hupper.1
    have hA : 'A'.toNat = 65 := rfl
    omega
  rw [hlower] at hhead
  subst hhead
  exact absurd hc (by decide)

/-- A span of one component is read. -/
theorem quotaParts_single (h : t.leading = []) : quotaParts lib t.text = some (t.number, t.unit.name) := by
  have htext : t.text = t.number ++ t.unit.name := by
    rw [Timespan.text, h, List.map_nil, List.nil_append, unwords_singleton]
  have hmatch : ∃ d, Matches timespanPattern ⟨[], t.number ++ t.unit.name, []⟩ d ∧ d.rest = [] := by
    have hunit : ∀ passed gs, Matches (.alts (unitNames.map Pattern.text)) ⟨passed, t.unit.name, gs⟩
        ⟨t.unit.name.reverse ++ passed, [], gs⟩ := by
      intro passed gs
      simpa using matches_unit_run (name_mem t.unit) passed [] gs
    have hwhole : ∀ s, Matches (.plus (.char Char.isDigit)) ⟨[], Nat.toDigits 10 t.whole ++ s, []⟩
        ⟨(Nat.toDigits 10 t.whole).reverse ++ [], s, []⟩ :=
      fun s => matches_plus_run Nat.toDigits_ne_nil (isDigit_toDigits t.whole) [] s []
    rw [Timespan.number]
    cases hfraction : t.fraction with
    | nil =>
      rw [List.isEmpty_nil, if_pos rfl, List.append_nil]
      exact ⟨_, ⟨_, ⟨_, ⟨_, hwhole t.unit.name, .inr rfl⟩, rfl⟩, _, .inl ⟨_, hunit _ _, rfl⟩, rfl⟩, rfl⟩
    | cons c fraction =>
      have hdigits : ∀ x ∈ c :: fraction, x.isDigit := hfraction ▸ t.digits
      have hrun := matches_plus_run (List.cons_ne_nil c fraction) hdigits
      rw [List.isEmpty_cons, if_neg (by decide), List.append_assoc, List.cons_append]
      have hdot : ∀ passed s gs, Matches (.lit '.') ⟨passed, '.' :: s, gs⟩ ⟨'.' :: passed, s, gs⟩ :=
        fun _ s _ => ⟨'.', s, rfl, beq_self_eq_true '.', rfl⟩
      exact ⟨_, ⟨_, ⟨_, ⟨_, hwhole ('.' :: (c :: fraction ++ t.unit.name)),
        .inl ⟨_, hdot _ _ _, hrun _ t.unit.name _⟩⟩, rfl⟩, _, .inl ⟨_, hunit _ _, rfl⟩, rfl⟩, rfl⟩
  obtain ⟨d, hd, hend⟩ := hmatch
  obtain ⟨m, hm⟩ := fullmatch_isSome rfl hd hend
  obtain ⟨number, unit, hsplit, hnumber, hunit, hcaptured₁, hcaptured₂⟩ := timespanPattern_sound hm
  obtain ⟨rfl, rfl⟩ := number_unique hsplit (isNumberChar_number t) hnumber
    (unit_head (.inr (name_mem t.unit))) (unit_head hunit)
  rw [quotaParts, if_neg (casefold_text t), htext, hm, Option.map_some, hcaptured₁, hcaptured₂]

/-- A span of more components is not read. -/
theorem quotaParts_several (h : t.leading ≠ []) : quotaParts lib t.text = none := by
  have hspace : ' ' ∈ t.text := by
    obtain ⟨part, parts, heq⟩ := List.exists_cons_of_ne_nil h
    rw [Timespan.text, heq, unwords_append (by simp) (by simp)]
    simp
  rw [quotaParts, if_neg (casefold_text t), Option.map_eq_none_iff]
  cases hm : fullmatch timespanPattern t.text with
  | none => rfl
  | some m =>
    obtain ⟨number, unit, hsplit, hnumber, hunit, -⟩ := timespanPattern_sound hm
    rw [hsplit, List.mem_append] at hspace
    rcases hspace with hspace | hspace
    · exact absurd (hnumber ' ' hspace) (by decide)
    · rcases hunit with rfl | hunit
      · cases hspace
      · have hall : ∀ u ∈ unitNames, ' ' ∉ u := by decide
        exact absurd hspace (hall unit hunit)

theorem stripBy_eq_self {p : Char → Bool} {s : Str} (h : ∀ c ∈ s, p c = false) : stripBy p s = s := by
  have hdrop : ∀ {u : Str}, (∀ c ∈ u, p c = false) → u.dropWhile p = u := by
    intro u hu
    cases u with
    | nil => rfl
    | cons c u => exact List.dropWhile_cons_of_neg (by simp [hu c])
  rw [stripBy, hdrop h, List.rdropWhile, hdrop fun c hc => h c (List.mem_reverse.1 hc), List.reverse_reverse]

theorem pyInt_toDigits {n : ℕ} (hn : n < 2 ^ 64) : pyInt lib (Nat.toDigits 10 n) = .ok (n : ℤ) := by
  obtain ⟨c, rest, heq, hc⟩ := toDigits_head n
  have hdigits := isDigit_toDigits n
  have hstrip : strip (Nat.toDigits 10 n) = Nat.toDigits 10 n := by
    have hspace : ∀ x ∈ Nat.toDigits 10 n, isSpace x = false := by
      intro x hx
      have hbound : 48 ≤ x.toNat ∧ x.toNat ≤ 57 := Char.isDigit_iff_toNat.1 (hdigits x hx)
      rw [Bool.eq_false_iff]
      intro hspace
      simp only [isSpace, Bool.or_eq_true, Bool.and_eq_true, decide_eq_true_eq, beq_iff_eq] at hspace
      omega
    exact stripBy_eq_self hspace
  have hsplit : (Nat.toDigits 10 n).splitOn '_' = [Nat.toDigits 10 n] := by
    apply List.splitOnP_eq_singleton
    intro x hx
    rw [beq_eq_false_iff_ne]
    rintro rfl
    exact Nat.underscore_not_in_toDigits hx
  have hlength : (Nat.toDigits 10 n).length ≤ 20 := by
    rw [Nat.length_toDigits_le_iff (by decide) (by decide)]
    exact hn.trans (by decide)
  have hsign : ∀ d ∈ ['-', '+'], c ≠ d := by
    rintro d hd rfl
    have hall : ∀ d ∈ ['-', '+'], d.isDigit = false := by decide
    rw [hall c hd] at hc
    cases hc
  have hany : (Nat.toDigits 10 n).any (fun c => !ReleaseInstaller.isDigit c) = false := by
    rw [List.any_eq_false]
    intro x hx
    simp [ReleaseInstaller.isDigit, digit?_ascii (hdigits x hx)]
  have hminus : (Nat.toDigits 10 n).head? ≠ some '-' := by
    rw [heq]
    simpa using hsign '-' (by simp)
  unfold pyInt
  simp only [hstrip]
  split
  · next more hmore =>
    rw [heq] at hmore
    exact absurd (List.cons.inj hmore).1 (hsign '-' (by simp))
  · next more hmore =>
    rw [heq] at hmore
    exact absurd (List.cons.inj hmore).1 (hsign '+' (by simp))
  · have hlimit : ¬ ReleaseInstaller.intMaxStrDigits < (Nat.toDigits 10 n).length := by
      rw [ReleaseInstaller.intMaxStrDigits]
      omega
    simp only [hsplit, List.flatten_cons, List.flatten_nil, List.append_nil, hany, List.any_cons, List.any_nil,
      List.isEmpty_eq_false_iff.2 Nat.toDigits_ne_nil, Bool.or_false, Bool.false_eq_true, if_false]
    rw [if_neg hlimit, if_neg hminus, decimal_toDigits]

theorem finiteInt_of_isLimit {v : Str} (h : IsLimit v) : ∃ d, finiteInt lib v = .ok d := by
  rw [finiteInt]
  split_ifs with hinfinity
  · exact ⟨_, rfl⟩
  · rcases h with rfl | ⟨n, hn, rfl⟩
    · exact absurd rfl hinfinity
    · rw [pyInt_toDigits hn]
      exact ⟨_, rfl⟩

/-- What is reported where `systemctl show` prints `value` for the quota. -/
theorem reports_shown {s : Surroundings} {value : Str} (h : Shows s value) :
    Reports lib s ((timespanMicroseconds lib value).map fun quota => quota.map (· / 10000)) := by
  obtain ⟨stdout, hshow, rfl, hlimits⟩ := h
  simp only [MetadataFailures.limitValues, List.map_cons, List.map_nil, List.forall_mem_cons] at hlimits
  obtain ⟨hmax, hhigh, htasks, -⟩ := hlimits
  obtain ⟨memoryMax, hmax⟩ := @finiteInt_of_isLimit lib _ hmax
  obtain ⟨memoryHigh, hhigh⟩ := @finiteInt_of_isLimit lib _ hhigh
  obtain ⟨tasksMax, htasks⟩ := @finiteInt_of_isLimit lib _ htasks
  have hrun : getSystemdLimits lib s = do
      let memoryMax ← finiteInt lib (property stdout "MemoryMax".toList)
      let memoryHigh ← finiteInt lib (property stdout "MemoryHigh".toList)
      let tasksMax ← finiteInt lib (property stdout "TasksMax".toList)
      return record [("memory_max_bytes".toList, memoryMax), ("memory_high_bytes".toList, memoryHigh),
        ("cpu_quota_percent".toList, quotaPercent lib (property stdout "CPUQuotaPerSecUSec".toList)),
        ("tasks_max".toList, tasksMax)] := by
    rw [getSystemdLimits, hshow]
    rfl
  rw [hmax, hhigh, htasks] at hrun
  refine ⟨_, hrun, ?_⟩
  change quotaPercent lib (property stdout "CPUQuotaPerSecUSec".toList) = _
  rw [quotaPercent]
  cases timespanMicroseconds lib (property stdout "CPUQuotaPerSecUSec".toList) <;> rfl

theorem Reports.unique {s : Surroundings} {x y : Option Float64} (hx : Reports lib s x) (hy : Reports lib s y) :
    x.map reprFloat = y.map reprFloat := by
  obtain ⟨limits, hlimits, hx⟩ := hx
  obtain ⟨limits', hlimits', hy⟩ := hy
  obtain rfl : limits = limits' := Data.dict.inj (Except.ok.inj (hlimits.symm.trans hlimits'))
  rw [hx] at hy
  cases x <;> cases y <;> simp_all

theorem reports_infinity {s : Surroundings} (h : Shows s "infinity".toList) : Reports lib s none := by
  have hfold : casefold lib.beyond "infinity".toList = "infinity".toList := rfl
  have hreported := @reports_shown lib _ _ h
  rw [timespanMicroseconds, if_pos hfold] at hreported
  exact hreported

theorem reports_single {s : Surroundings} (h : Shows s t.text) (hsingle : t.leading = []) :
    Reports lib s (some (((Float64.ofRat t.value).map (· * t.unit.micros)).map (· / 10000))) := by
  have hreported := @reports_shown lib _ _ h
  rw [timespanMicroseconds_eq, quotaParts_single hsingle, Option.map_some, numberValue_number,
    multiplier_name] at hreported
  exact hreported

theorem reports_several {s : Surroundings} (h : Shows s t.text) (hseveral : t.leading ≠ []) :
    Reports lib s none := by
  have hreported := @reports_shown lib _ _ h
  rw [timespanMicroseconds_eq, quotaParts_several hseveral] at hreported
  exact hreported

/-- A finite quota passes for no limit exactly where it is printed as several components. -/
theorem reports_none_iff {s : Surroundings} (h : Shows s t.text) : Reports lib s none ↔ t.leading ≠ [] := by
  refine ⟨fun hnone hsingle => ?_, reports_several h⟩
  have hsame := hnone.unique (reports_single h hsingle)
  cases hsame

end

/-- Whole microseconds, times a factor that is neither large nor very small. -/
theorem scaled_bounds {q : ℕ} (hq : q < 2 ^ 64) {x k : ℚ} (hk : 2 ^ (-40 : ℤ) ≤ k) (hone : k ≤ 1)
    (h : Within (1 / 2) x (q * k)) : IsNormal x ∧ |x| < 2 ^ 1023 := by
  have hpos : 0 < k := (zpow_pos' _).trans_le hk
  have habs : |(q : ℚ) * k| = q * k := abs_of_nonneg (by positivity)
  have hlow := h.le_abs
  have hhigh := h.abs_le
  rw [habs] at hlow hhigh
  have hcast : (q : ℚ) < 2 ^ 64 := by exact_mod_cast hq
  have hle : (q : ℚ) * k ≤ 2 ^ 64 := (mul_le_of_le_one_right (by positivity) hone).trans hcast.le
  constructor
  · rcases Nat.eq_zero_or_pos q with rfl | hqpos
    · left
      rw [Nat.cast_zero, zero_mul, mul_zero] at hhigh
      exact abs_nonpos_iff.1 hhigh
    · right
      have hq1 : (1 : ℚ) ≤ q := by exact_mod_cast hqpos
      have hqk : k ≤ q * k := le_mul_of_one_le_left hpos.le hq1
      have hsmall : (2 : ℚ) ^ (-1022 : ℤ) ≤ 2 ^ (-41 : ℤ) := zpow_le_zpow_right₀ (by norm_num) (by norm_num)
      have hhalf : (2 : ℚ) ^ (-41 : ℤ) = (1 - 1 / 2) * 2 ^ (-40 : ℤ) := by norm_num
      rw [hhalf] at hsmall
      exact hsmall.trans ((mul_le_mul_of_nonneg_left (hk.trans hqk) (by norm_num)).trans hlow)
  · have hlarge : (1 + 1 / 2) * (2 : ℚ) ^ 64 < 2 ^ 1023 :=
      lt_of_lt_of_le (by norm_num) (pow_le_pow_right₀ one_le_two (by norm_num : 66 ≤ 1023))
    exact (hhigh.trans (mul_le_mul_of_nonneg_left hle (by norm_num))).trans_lt hlarge

theorem micros_bounds (u : TimeUnit) : (1 : ℚ) ≤ u.micros ∧ (u.micros : ℚ) ≤ 3600000000 := by
  cases u <;> norm_num [TimeUnit.micros]

section
variable {lib : Library} {t : Timespan}

/-- The three operations round, and overflow in none of them. -/
theorem rounded_percent {q : ℕ} (hlt : q < 2 ^ 64) (hq : t.value * t.unit.micros = q) :
    Within (2 ^ (-51 : ℤ)) (percentOf t.value t.unit) (q / 10000) ∧
      ∃ h, ((Float64.ofRat t.value).map (· * t.unit.micros)).map (· / 10000) =
        .finite (percentOf t.value t.unit) h := by
  obtain ⟨hmicros, hmicros'⟩ := micros_bounds t.unit
  have hpos : (0 : ℚ) < t.unit.micros := one_pos.trans_le hmicros
  have hsmall : (2 : ℚ) ^ (-53 : ℤ) ≤ 1 / 2 ∧ (2 : ℚ) ^ (-52 : ℤ) ≤ 1 / 2 := by norm_num
  have hvalue : t.value = q * (1 / t.unit.micros) := by rw [← hq]; field_simp
  have hnumber : IsNormal t.value ∧ |t.value| < 2 ^ 1023 := by
    refine scaled_bounds hlt (k := 1 / t.unit.micros) ?_ ?_ ?_
    · rw [le_div_iff₀ hpos]
      calc (2 : ℚ) ^ (-40 : ℤ) * t.unit.micros ≤ 2 ^ (-40 : ℤ) * 3600000000 :=
            mul_le_mul_of_nonneg_left hmicros' (zpow_pos' _).le
        _ ≤ 1 := by norm_num
    · rw [div_le_one hpos]
      exact hmicros
    · rw [← hvalue, Within, sub_self, abs_zero]
      positivity
  have hfirst := (round64_within hnumber.1).mul_right t.unit.micros
  rw [hq] at hfirst
  have hproduct : IsNormal (round64 t.value * t.unit.micros) ∧ |round64 t.value * t.unit.micros| < 2 ^ 1023 := by
    refine scaled_bounds hlt (k := 1) (by norm_num) le_rfl ?_
    rw [mul_one]
    exact hfirst.mono hsmall.1
  have hsecond : Within (2 ^ (-52 : ℤ) + 2 ^ (-106 : ℤ)) (round64 (round64 t.value * t.unit.micros)) q :=
    ((round64_within hproduct.1).trans (zpow_pos' _).le hfirst).mono (by norm_num)
  have hthird := hsecond.mul_right (1 / 10000)
  rw [mul_one_div, mul_one_div] at hthird
  have hquotient : IsNormal (round64 (round64 t.value * t.unit.micros) / 10000) ∧
      |round64 (round64 t.value * t.unit.micros) / 10000| < 2 ^ 1023 := by
    refine scaled_bounds hlt (k := 1 / 10000) (by norm_num) (by norm_num) ?_
    rw [mul_one_div]
    exact hthird.mono (by norm_num)
  refine ⟨((round64_within hquotient.1).trans (zpow_pos' _).le hthird).mono (by norm_num), ?_⟩
  obtain ⟨h₁, hfinite₁⟩ := Float64.ofRat_finite hnumber.1 hnumber.2
  obtain ⟨h₂, hfinite₂⟩ := Float64.ofRat_finite hproduct.1 hproduct.2
  obtain ⟨h₃, hfinite₃⟩ := Float64.ofRat_finite hquotient.1 hquotient.2
  refine ⟨h₃, ?_⟩
  rw [hfinite₁, Float64.map, hfinite₂, Float64.map, hfinite₃]
  rfl

/-- A quota that is printed as one component is reported as the float that the three operations come
to, next to the exact percentage, and equal to it where no operation has to round; `infinity` is
reported as no limit. -/
theorem quota_decoded {s : Surroundings} (h : Shows s t.text) (hsingle : t.leading = []) {q : ℕ}
    (hlt : q < 2 ^ 64) (hq : t.micros = q) :
    (∃ isFloat, Reports lib s (some (.finite (percentOf t.value t.unit) isFloat))) ∧
      |percentOf t.value t.unit - q / 10000| ≤ 2 ^ (-51 : ℤ) * (q / 10000) ∧
      (IsFloat64 t.value → IsFloat64 q → IsFloat64 (q / 10000) → ReportsExactly lib s q) ∧
      ∀ s', Shows s' "infinity".toList → Reports lib s' none := by
  have hvalue : t.value * t.unit.micros = q := by
    rw [← hq, Timespan.micros, hsingle]
    simp
  obtain ⟨hwithin, isFloat, hfinite⟩ := rounded_percent hlt hvalue
  have hreports := @reports_single lib t s h hsingle
  rw [hfinite] at hreports
  refine ⟨⟨isFloat, hreports⟩, ?_, fun hvalueFloat hmicrosFloat hpercentFloat => ?_, fun _ => reports_infinity⟩
  · have habs : |(q : ℚ) / 10000| = q / 10000 := abs_of_nonneg (by positivity)
    rw [Within, habs] at hwithin
    exact hwithin
  · refine ⟨_, isFloat, hreports, ?_⟩
    rw [percentOf, round64_of_isFloat64 hvalueFloat, hvalue, round64_of_isFloat64 hmicrosFloat,
      round64_of_isFloat64 hpercentFloat]

end

/-- A node whose service has this quota. -/
def showing (value : Str) : Surroundings :=
  { MetadataFailures.answering MetadataFailures.emptyResult MetadataFailures.emptyResult_fits 0 with
    systemctlShow := .ok (0, "MemoryMax=infinity\nCPUQuotaPerSecUSec=".toList ++ value ++ "\nTasksMax=4915".toList) }

theorem shows_showing {value : Str} (h : property ("MemoryMax=infinity\nCPUQuotaPerSecUSec=".toList ++ value ++
    "\nTasksMax=4915".toList) "CPUQuotaPerSecUSec".toList = value)
    (hlimits : MetadataFailures.limitValues ("MemoryMax=infinity\nCPUQuotaPerSecUSec=".toList ++ value ++
      "\nTasksMax=4915".toList) = ["infinity".toList, "infinity".toList, "4915".toList]) :
    Shows (showing value) value := by
  refine ⟨_, rfl, h, ?_⟩
  rw [hlimits]
  have hnumber : IsLimit "4915".toList := .inr ⟨4915, by decide, rfl⟩
  intro v hv
  simp only [List.mem_cons, List.not_mem_nil, or_false] at hv
  rcases hv with rfl | rfl | rfl
  · exact .inl rfl
  · exact .inl rfl
  · exact hnumber

/-- Ninety seconds of CPU time in each second. -/
def minuteAndHalf : Timespan where
  leading := [(1, .minute)]
  whole := 30
  fraction := []
  unit := .second
  descending := by decide
  digits := nofun

theorem reports_none_minuteAndHalf :
    Reports MetadataFailures.bareLibrary (showing minuteAndHalf.text) none :=
  (reports_none_iff (shows_showing rfl rfl)).2 (by decide)

def tenMicros : Timespan where
  leading := []
  whole := 10
  fraction := []
  unit := .microsecond
  descending := by decide
  digits := nofun

/-- No float is a thousandth. -/
theorem not_isFloat64_thousandth : ¬ IsFloat64 (1 / 1000) := by
  rintro ⟨-, m, e, -, -, heq⟩
  cases e with
  | ofNat k =>
    have hint : 1 = 1000 * (m * 2 ^ k) := by
      rw [Int.ofNat_eq_natCast, zpow_natCast] at heq
      have hrat : (1 : ℚ) = 1000 * (m * 2 ^ k) := by rw [← heq]; norm_num
      exact_mod_cast hrat
    omega
  | negSucc k =>
    have hint : (2 : ℤ) ^ (k + 1) = 5 * (200 * m) := by
      rw [zpow_negSucc] at heq
      have hpow : (2 : ℚ) ^ (k + 1) ≠ 0 := by positivity
      have hrat : (2 : ℚ) ^ (k + 1) = 5 * (200 * m) := by
        field_simp at heq
        linarith
      exact_mod_cast hrat
    have hdvd : (5 : ℤ) ∣ 2 := Int.Prime.dvd_pow' (by norm_num) ⟨_, hint⟩
    omega

/-- A quota of `10us` is reported as the float next to a thousandth. -/
theorem tenMicros_inexact : ¬ ∀ lib s t, Shows s (Timespan.text t) → ReportsExactly lib s t.micros := by
  intro h
  have hshows : Shows (showing tenMicros.text) tenMicros.text := shows_showing rfl rfl
  obtain ⟨x, hfloat, -, hx⟩ := h MetadataFailures.bareLibrary _ tenMicros hshows
  have hthousandth : x = 1 / 1000 := by
    rw [hx]
    norm_num [Timespan.micros, Timespan.value, tenMicros, TimeUnit.micros, fractionValue, decimal]
  exact not_isFloat64_thousandth (hthousandth ▸ hfloat)

def fourSeconds : Timespan where
  leading := []
  whole := 4
  fraction := []
  unit := .second
  descending := by decide
  digits := nofun

theorem isFloat64_natCast {n : ℕ} (h : n < 2 ^ 53) : IsFloat64 n := by
  have hcast : ((n : ℤ) : ℚ) = n := Int.cast_natCast n
  refine ⟨?_, n, 0, ?_, by norm_num, by simp⟩
  · rw [abs_of_nonneg (by positivity)]
    have hlt : (n : ℚ) < 2 ^ 53 := by exact_mod_cast h
    exact hlt.trans (pow_lt_pow_right₀ one_lt_two (by norm_num))
  · rw [abs_of_nonneg (by positivity)]
    exact_mod_cast h

theorem quota_decoded_fourSeconds :
    ReportsExactly MetadataFailures.bareLibrary (showing fourSeconds.text) 4000000 := by
  have hvalue : fourSeconds.value = (4 : ℕ) := by simp [Timespan.value, fourSeconds, fractionValue, decimal]
  have hmicros : fourSeconds.micros = (4000000 : ℕ) := by
    rw [Timespan.micros, hvalue]
    norm_num [fourSeconds, TimeUnit.micros]
  have hquotient : ((4000000 : ℕ) : ℚ) / 10000 = (400 : ℕ) := by norm_num
  have hdecoded := @quota_decoded MetadataFailures.bareLibrary fourSeconds _ (shows_showing rfl rfl) rfl 4000000
    (by norm_num) hmicros
  rw [hvalue, hquotient] at hdecoded
  exact_mod_cast hdecoded.2.2.1 (isFloat64_natCast (by norm_num)) (isFloat64_natCast (by norm_num))
    (isFloat64_natCast (by norm_num))

end BitcoinRpcOperator.CpuQuota
