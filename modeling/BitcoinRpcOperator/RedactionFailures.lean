import BitcoinRpcOperator.RaisedExceptions
import BitcoinRpcOperator.Redaction

/-!
# When redaction raises

Which texts `redact_runtime_value` fails on with an exception rather than closed.
-/

namespace BitcoinRpcOperator.Redaction
open Text PythonValues
open RaisedExceptions (bind_eq_ok)

variable (lib : Library)

/-- The fragments that are recognised, and whether the last container has an end. -/
def fragments : ℕ → Option Char → Str → List Str × Bool
  | 0, _, _ => ([], false)
  | n + 1, before, value =>
    match nextRound before value with
    | .finished _ => ([], true)
    | .unclosed => ([], false)
    | .skipped plain rest => fragments n plain.getLast? rest
    | .found _ fragment rest =>
      (fragment :: (fragments n fragment.getLast? rest).1,
        (fragments n fragment.getLast? rest).2)

def fragmentsOf (value : Str) : List Str × Bool := fragments (value.length + 1) none value

/-- The fragment is parsed, and its redacted value is serialized again. -/
def Rewritten (redact : ℕ → Str → Except PythonError Str) (room : ℕ) (fragment : Str) : Prop :=
  ∃ v v' text, parseSerialized lib fragment = .ok (some v) ∧
    redactValue lib redact room [] v = .ok v' ∧ dumps compactStyle v' = .ok text

/-- Redaction returns a text, and nothing else than `REDACTED` when it recognises a fragment
that is not rewritten. -/
def FailsClosed (value : Str) : Prop :=
  ∃ r, redactRuntimeValue lib value = .ok r ∧
    ((fragmentsOf value).2 = false ∨
      (∃ fragment ∈ (fragmentsOf value).1, ¬ Rewritten lib (redactAt lib) lib.room fragment) →
      r = redacted)

mutual

/-- Every text that is not under a sensitive key satisfies `clean`, every container there is within the room, and
its keys can be written. -/
def TextsClean (clean : ℕ → Str → Prop) (room : ℕ) (key : Str) : Data → Prop
  | .dict es => keyIsSensitive key ∨ 0 < room ∧ EntryTextsClean clean (room - 1) es
  | .list xs => keyIsSensitive key ∨ 0 < room ∧ ItemTextsClean clean (room - 1) xs
  | .tuple xs => keyIsSensitive key ∨ 0 < room ∧ ItemTextsClean clean (room - 1) xs
  | .str s => keyIsSensitive key ∨ clean room s
  | _ => True

def ItemTextsClean (clean : ℕ → Str → Prop) (room : ℕ) : List Data → Prop
  | [] => True
  | x :: xs => TextsClean clean room [] x ∧ ItemTextsClean clean room xs

def EntryTextsClean (clean : ℕ → Str → Prop) (room : ℕ) : List (Data × Data) → Prop
  | [] => True
  | (k, v) :: es => intsFit k ∧ TextsClean clean room (text lib.printable k) v ∧ EntryTextsClean clean room es

end

def keyTexts (es : List (Data × Data)) : List Str := es.map fun e => text lib.printable e.1

mutual

/-- What is not under a sensitive key has a JSON form: no bytes, sets, complex numbers, no `Ellipsis` and no
integer with too many digits. An entry that a later one replaces does not count. -/
def HasJson (key : Str) : Data → Prop
  | .dict es => keyIsSensitive key ∨ EntriesHaveJson es
  | .list xs => keyIsSensitive key ∨ ItemsHaveJson xs
  | .tuple xs => keyIsSensitive key ∨ ItemsHaveJson xs
  | .int n => keyIsSensitive key ∨ intFits n
  | .none | .bool _ | .float _ | .str _ => True
  | .ellipsis | .complex _ | .bytes _ | .set _ => keyIsSensitive key

def ItemsHaveJson : List Data → Prop
  | [] => True
  | x :: xs => HasJson [] x ∧ ItemsHaveJson xs

def EntriesHaveJson : List (Data × Data) → Prop
  | [] => True
  | (k, v) :: es => (text lib.printable k ∈ keyTexts lib es ∨ HasJson (text lib.printable k) v) ∧
      EntriesHaveJson es

end

/-- Up to the first fragment that is no literal, parsing raises nothing, the values have a
JSON form, and their texts satisfy `clean`. -/
def FragmentsClean (clean : ℕ → Str → Prop) (room : ℕ) : List Str → Prop
  | [] => True
  | fragment :: more =>
    match parseSerialized lib fragment with
    | .error _ => False
    | .ok none => True
    | .ok (some v) => TextsClean lib clean room [] v ∧ HasJson lib [] v ∧ FragmentsClean clean room more

/-- The fragments of a text are clean, and those in their texts, less than `n` deep. -/
def CleanWithin : ℕ → ℕ → Str → Prop
  | 0, _, _ => True
  | n + 1, room, value => FragmentsClean lib (CleanWithin n) room (fragmentsOf value).1

def CleanAt (room : ℕ) (value : Str) : Prop := CleanWithin lib (value.length + 1) room value

def Clean (value : Str) : Prop := CleanAt lib lib.room value

section
variable {lib} {f : ℕ → Str → Except PythonError Str}

theorem hide_sensitive {key : Str} (h : keyIsSensitive key) (value : Except PythonError Data) :
    hide key value = .ok (.str redacted) := if_pos h

theorem hide_plain {key : Str} (h : ¬ keyIsSensitive key) (value : Except PythonError Data) :
    hide key value = value := if_neg h

theorem redactValue_hidden {key : Str} (h : keyIsSensitive key) (room : ℕ) (v : Data) :
    redactValue lib f room key v = .ok (.str redacted) := by
  cases v <;> exact hide_sensitive h _

def Returns {α : Type} (x : Except PythonError α) : Prop := ∃ a, x = .ok a

theorem returns_ok {α : Type} (a : α) : Returns (.ok a : Except PythonError α) := ⟨a, rfl⟩

theorem returns_bind {α β : Type} {x : Except PythonError α} {k : α → Except PythonError β} :
    Returns (x.bind k) ↔ ∃ a, x = .ok a ∧ Returns (k a) := by
  cases x with
  | error e => exact iff_of_false (fun h => by obtain ⟨b, hb⟩ := h; cases hb) (by simp)
  | ok a => simp [Except.bind]

theorem returns_map {α β : Type} {x : Except PythonError α} {g : α → β} :
    Returns (x.bind fun a => .ok (g a)) ↔ Returns x := by
  rw [returns_bind]
  constructor
  · rintro ⟨a, ha, -⟩
    exact ⟨a, ha⟩
  · rintro ⟨a, ha⟩
    exact ⟨a, ha, returns_ok _⟩

theorem returns_hide {key : Str} {value : Except PythonError Data} :
    Returns (hide key value) ↔ keyIsSensitive key ∨ Returns value := by
  by_cases h : keyIsSensitive key
  · rw [hide_sensitive h]
    exact iff_of_true (returns_ok _) (.inl h)
  · rw [hide_plain h]
    simp [h]

theorem returns_descend {α : Type} {room : ℕ} {inside : ℕ → Except PythonError α} :
    Returns (descend room inside) ↔ 0 < room ∧ Returns (inside (room - 1)) := by
  cases room with
  | zero => exact iff_of_false (fun h => by obtain ⟨a, ha⟩ := h; cases ha) (by simp)
  | succ room => simp [descend]

theorem returns_strOf {printable : Char → Bool} {k : Data} : Returns (strOf printable k) ↔ intsFit k := by
  simp [Returns, strOf_eq_ok]

mutual

theorem redactValue_returns : ∀ (v : Data) (room : ℕ) (key : Str),
    Returns (redactValue lib f room key v) ↔ TextsClean lib (fun room s => Returns (f room s)) room key v
  | .dict es, room, key => by
    rw [redactValue, TextsClean, returns_hide, returns_descend, ← redactEntries_returns es]
    exact or_congr_right (and_congr_right fun _ => returns_map)
  | .list xs, room, key => by
    rw [redactValue, TextsClean, returns_hide, returns_descend, ← redactItems_returns xs]
    exact or_congr_right (and_congr_right fun _ => returns_map)
  | .tuple xs, room, key => by
    rw [redactValue, TextsClean, returns_hide, returns_descend, ← redactItems_returns xs]
    exact or_congr_right (and_congr_right fun _ => returns_map)
  | .str s, room, key => by
    rw [redactValue, TextsClean, returns_hide]
    exact or_congr_right returns_map
  | .none, _, _ | .ellipsis, _, _ | .bool _, _, _ | .int _, _, _ | .float _, _, _ | .complex _, _, _
  | .bytes _, _, _ | .set _, _, _ => by
    rw [redactValue, returns_hide]
    · exact iff_of_true (.inr (returns_ok _)) trivial
    all_goals nofun

theorem redactItems_returns : ∀ (xs : List Data) (room : ℕ),
    Returns (redactItems lib f room xs) ↔ ItemTextsClean lib (fun room s => Returns (f room s)) room xs
  | [], _ => iff_of_true (returns_ok _) trivial
  | x :: xs, room => by
    rw [redactItems, ItemTextsClean, ← redactValue_returns x room [], ← redactItems_returns xs room]
    refine returns_bind.trans ⟨?_, ?_⟩
    · rintro ⟨x', hx, hxs⟩
      exact ⟨⟨x', hx⟩, returns_map.1 hxs⟩
    · rintro ⟨⟨x', hx⟩, hxs⟩
      exact ⟨x', hx, returns_map.2 hxs⟩

theorem redactEntries_returns : ∀ (es : List (Data × Data)) (room : ℕ),
    Returns (redactEntries lib f room es) ↔ EntryTextsClean lib (fun room s => Returns (f room s)) room es
  | [], _ => iff_of_true (returns_ok _) trivial
  | (k, v) :: es, room => by
    rw [redactEntries, EntryTextsClean, ← redactValue_returns v, ← redactEntries_returns es room]
    refine returns_bind.trans ⟨?_, ?_⟩
    · rintro ⟨name, hname, h⟩
      obtain ⟨hfit, rfl⟩ := strOf_eq_ok.1 hname
      obtain ⟨v', hv, hes⟩ := returns_bind.1 h
      exact ⟨hfit, ⟨v', hv⟩, returns_map.1 hes⟩
    · rintro ⟨hfit, ⟨v', hv⟩, hes⟩
      exact ⟨_, strOf_eq_ok.2 ⟨hfit, rfl⟩, returns_bind.2 ⟨v', hv, returns_map.2 hes⟩⟩

end

end

section
variable {lib} {f : ℕ → Str → Except PythonError Str} {style : Style}

theorem dumpsItems_returns (xs : List Data) :
    Returns (dumpsItems style xs) ↔ ∀ x ∈ xs, Returns (dumps style x) := by
  induction xs with
  | nil => exact iff_of_true (returns_ok _) (by simp)
  | cons x xs ih =>
    rw [dumpsItems, List.forall_mem_cons, ← ih]
    refine returns_bind.trans ⟨?_, ?_⟩
    · rintro ⟨t, hx, hxs⟩
      exact ⟨⟨t, hx⟩, returns_map.1 hxs⟩
    · rintro ⟨⟨t, hx⟩, hxs⟩
      exact ⟨t, hx, returns_map.2 hxs⟩

theorem dumpsEntries_returns (es : List (Str × Data)) :
    Returns (dumpsEntries style (es.map fun e => (.str e.1, e.2))) ↔
      ∀ e ∈ es, Returns (dumps style e.2) := by
  induction es with
  | nil => exact iff_of_true (returns_ok _) (by simp)
  | cons e es ih =>
    rw [List.map_cons, dumpsEntries, List.forall_mem_cons, ← ih]
    refine returns_bind.trans ?_
    simp only [jsonKey, Except.ok.injEq, exists_eq_left']
    refine returns_bind.trans ⟨?_, ?_⟩
    · rintro ⟨t, hx, hxs⟩
      exact ⟨⟨t, hx⟩, returns_map.1 hxs⟩
    · rintro ⟨⟨t, hx⟩, hxs⟩
      exact ⟨t, hx, returns_map.2 hxs⟩

theorem assign_keys (key : Str) (value : Data) (es : List (Str × Data)) :
    (assign key value es).map (·.1) =
      if key ∈ es.map (·.1) then es.map (·.1) else es.map (·.1) ++ [key] := by
  induction es with
  | nil => rfl
  | cons e es ih =>
    obtain ⟨k, v⟩ := e
    rw [assign]
    by_cases hk : k = key
    · rw [if_pos hk, if_pos (by simp [hk])]
      rfl
    · have hne : ¬ key = k := fun h => hk h.symm
      rw [if_neg hk, List.map_cons, ih, List.map_cons]
      simp only [List.mem_cons, hne, false_or]
      split <;> rfl

theorem assign_nodup {key : Str} {value : Data} {es : List (Str × Data)}
    (h : (es.map (·.1)).Nodup) : ((assign key value es).map (·.1)).Nodup := by
  rw [assign_keys]
  split
  · exact h
  · next hnot =>
    have hcons : ([key] ++ es.map (·.1)).Nodup := List.nodup_cons.2 ⟨hnot, h⟩
    exact List.nodup_append_comm.1 hcons

/-- What holds of the entries after one is set. -/
theorem forall_assign {Q : Str × Data → Prop} {key : Str} {value : Data} {es : List (Str × Data)}
    (h : (es.map (·.1)).Nodup) : (∀ e ∈ assign key value es, Q e) ↔
      Q (key, value) ∧ ∀ e ∈ es, e.1 = key ∨ Q e := by
  induction es with
  | nil => simp [assign]
  | cons e es ih =>
    obtain ⟨k, v⟩ := e
    rw [List.map_cons, List.nodup_cons] at h
    rw [assign]
    by_cases hk : k = key
    · subst hk
      rw [if_pos rfl, List.forall_mem_cons, List.forall_mem_cons]
      have hrest : ∀ e ∈ es, e.1 ≠ k := fun e he heq => h.1 (List.mem_map.2 ⟨e, he, heq⟩)
      refine and_congr_right fun _ => ⟨fun hes => ⟨.inl rfl, fun e he => .inr (hes e he)⟩, ?_⟩
      rintro ⟨-, hes⟩ e he
      exact (hes e he).resolve_left (hrest e he)
    · rw [if_neg hk, List.forall_mem_cons, List.forall_mem_cons, ih h.2]
      simp only [hk, false_or]
      exact ⟨fun hall => ⟨hall.2.1, hall.1, hall.2.2⟩, fun hall => ⟨hall.2.1, hall.1, hall.2.2⟩⟩

/-- Every entry that no later one replaces satisfies `P`. -/
def LastEntries (P : Data → Prop) : List (Str × Data) → Prop
  | [] => True
  | (k, v) :: es => (k ∈ es.map (·.1) ∨ P v) ∧ LastEntries P es

theorem forall_foldl_assign (P : Data → Prop) (es : List (Str × Data)) :
    ∀ acc : List (Str × Data), (acc.map (·.1)).Nodup →
      ((∀ e ∈ es.foldl (fun es e => assign e.1 e.2 es) acc, P e.2) ↔
        (∀ e ∈ acc, e.1 ∈ es.map (·.1) ∨ P e.2) ∧ LastEntries P es) := by
  induction es with
  | nil =>
    intro acc hacc
    simp [LastEntries]
  | cons e es ih =>
    intro acc hacc
    obtain ⟨k, v⟩ := e
    rw [List.foldl_cons, ih _ (assign_nodup hacc), forall_assign hacc, LastEntries, and_assoc,
      and_left_comm]
    simp only [List.map_cons, List.mem_cons, or_assoc]

/-- Serializing a dictionary of texts depends on its last entries. -/
theorem dumps_dictOf (es : List (Str × Data)) :
    Returns (dumps style (dictOf es)) ↔ LastEntries (fun v => Returns (dumps style v)) es := by
  rw [dictOf, dumps]
  refine returns_map.trans ?_
  rw [dumpsEntries_returns, forall_foldl_assign (fun v => Returns (dumps style v)) es [] .nil]
  simp

theorem hide_eq_ok {key : Str} {value : Except PythonError Data} {v' : Data}
    (h : hide key value = .ok v') :
    keyIsSensitive key ∧ v' = .str redacted ∨ ¬ keyIsSensitive key ∧ value = .ok v' := by
  by_cases hkey : keyIsSensitive key
  · rw [hide_sensitive hkey] at h
    exact .inl ⟨hkey, (Except.ok.inj h).symm⟩
  · rw [hide_plain hkey] at h
    exact .inr ⟨hkey, h⟩

/-- A value that is serialized alone is when it is redacted. -/
theorem dumps_atom {key : Str} {v v' : Data} (hv : Returns (dumps style v))
    (h : hide key (.ok v) = .ok v') : Returns (dumps style v') := by
  rcases hide_eq_ok h with ⟨-, rfl⟩ | ⟨-, h⟩
  · exact returns_ok _
  · obtain rfl := Except.ok.inj h
    exact hv

/-- A value without a JSON form has to be hidden. -/
theorem dumps_without_json {key : Str} {v v' : Data} (hv : dumps style v = .error .typeError)
    (h : hide key (.ok v) = .ok v') : Returns (dumps style v') ↔ keyIsSensitive key := by
  rcases hide_eq_ok h with ⟨hkey, rfl⟩ | ⟨hkey, h⟩
  · exact iff_of_true (returns_ok _) hkey
  · obtain rfl := Except.ok.inj h
    refine iff_of_false (fun hreturns => ?_) hkey
    obtain ⟨t, ht⟩ := hreturns
    rw [hv] at ht
    cases ht

/-- An integer has to be hidden or short. -/
theorem dumps_int {key : Str} {n : ℤ} {v' : Data} (h : hide key (.ok (.int n)) = .ok v') :
    Returns (dumps style v') ↔ keyIsSensitive key ∨ intFits n := by
  rcases hide_eq_ok h with ⟨hkey, rfl⟩ | ⟨hkey, h⟩
  · exact iff_of_true (returns_ok _) (.inl hkey)
  · obtain rfl := Except.ok.inj h
    rw [dumps, intStr]
    by_cases hfit : intFits n
    · rw [if_pos hfit]
      exact iff_of_true (returns_ok _) (.inr hfit)
    · rw [if_neg hfit]
      exact iff_of_false (fun h => by obtain ⟨t, ht⟩ := h; cases ht) (by simp [hkey, hfit])

theorem descend_eq_ok {α : Type} {room : ℕ} {inside : ℕ → Except PythonError α} {a : α} :
    descend room inside = .ok a ↔ ∃ below, room = below + 1 ∧ inside below = .ok a := by
  cases room with
  | zero => simp [descend]
  | succ room => simp [descend]

mutual

/-- The redacted value can be serialized when the value has a JSON form. -/
theorem dumps_redactValue : ∀ (v : Data) (room : ℕ) (key : Str) {v' : Data},
    redactValue lib f room key v = .ok v' → (Returns (dumps style v') ↔ HasJson lib key v)
  | .dict es, room, key, v', h => by
    rw [redactValue] at h
    rw [HasJson]
    rcases hide_eq_ok h with ⟨hkey, rfl⟩ | ⟨hkey, h⟩
    · exact iff_of_true (returns_ok _) (.inl hkey)
    · obtain ⟨below, -, h⟩ := descend_eq_ok.1 h
      obtain ⟨es', hes, h⟩ := bind_eq_ok.1 h
      obtain rfl := Except.ok.inj h
      rw [dumps_dictOf, (dumps_redactEntries es below hes).2]
      simp [hkey]
  | .list xs, room, key, v', h => by
    rw [redactValue] at h
    rw [HasJson]
    rcases hide_eq_ok h with ⟨hkey, rfl⟩ | ⟨hkey, h⟩
    · exact iff_of_true (returns_ok _) (.inl hkey)
    · obtain ⟨below, -, h⟩ := descend_eq_ok.1 h
      obtain ⟨xs', hxs, h⟩ := bind_eq_ok.1 h
      obtain rfl := Except.ok.inj h
      rw [← dumps_redactItems xs below hxs, dumps]
      refine returns_map.trans ?_
      simp [hkey]
  | .tuple xs, room, key, v', h => by
    rw [redactValue] at h
    rw [HasJson]
    rcases hide_eq_ok h with ⟨hkey, rfl⟩ | ⟨hkey, h⟩
    · exact iff_of_true (returns_ok _) (.inl hkey)
    · obtain ⟨below, -, h⟩ := descend_eq_ok.1 h
      obtain ⟨xs', hxs, h⟩ := bind_eq_ok.1 h
      obtain rfl := Except.ok.inj h
      rw [← dumps_redactItems xs below hxs, dumps]
      refine returns_map.trans ?_
      simp [hkey]
  | .str s, room, key, v', h => by
    rw [redactValue] at h
    rcases hide_eq_ok h with ⟨hkey, rfl⟩ | ⟨hkey, h⟩
    · exact iff_of_true (returns_ok _) trivial
    · obtain ⟨s', hs, h⟩ := bind_eq_ok.1 h
      obtain rfl := Except.ok.inj h
      exact iff_of_true (returns_ok _) trivial
  | .none, _, _, _, h => iff_of_true (dumps_atom ⟨_, rfl⟩ h) trivial
  | .bool true, _, _, _, h => iff_of_true (dumps_atom ⟨_, rfl⟩ h) trivial
  | .bool false, _, _, _, h => iff_of_true (dumps_atom ⟨_, rfl⟩ h) trivial
  | .float _, _, _, _, h => iff_of_true (dumps_atom ⟨_, rfl⟩ h) trivial
  | .int _, _, _, _, h => dumps_int h
  | .ellipsis, _, _, _, h => dumps_without_json rfl h
  | .complex _, _, _, _, h => dumps_without_json rfl h
  | .bytes _, _, _, _, h => dumps_without_json rfl h
  | .set _, _, _, _, h => dumps_without_json rfl h

theorem dumps_redactItems : ∀ (xs : List Data) (room : ℕ) {xs' : List Data},
    redactItems lib f room xs = .ok xs' → (Returns (dumpsItems style xs') ↔ ItemsHaveJson lib xs)
  | [], _, xs', h => by
    obtain rfl := Except.ok.inj h
    exact iff_of_true (returns_ok _) trivial
  | x :: xs, room, xs', h => by
    obtain ⟨x', hx, h⟩ := bind_eq_ok.1 h
    obtain ⟨xs', hxs, h⟩ := bind_eq_ok.1 h
    obtain rfl := Except.ok.inj h
    rw [ItemsHaveJson, ← dumps_redactValue x room [] hx, ← dumps_redactItems xs room hxs, dumpsItems_returns,
      dumpsItems_returns, List.forall_mem_cons]

theorem dumps_redactEntries : ∀ (es : List (Data × Data)) (room : ℕ) {es' : List (Str × Data)},
    redactEntries lib f room es = .ok es' → es'.map (·.1) = keyTexts lib es ∧
      (LastEntries (fun v => Returns (dumps style v)) es' ↔ EntriesHaveJson lib es)
  | [], _, es', h => by
    obtain rfl := Except.ok.inj h
    exact ⟨rfl, Iff.rfl⟩
  | (k, v) :: es, room, es', h => by
    obtain ⟨name, hname, h⟩ := bind_eq_ok.1 h
    obtain ⟨-, rfl⟩ := strOf_eq_ok.1 hname
    obtain ⟨v', hv, h⟩ := bind_eq_ok.1 h
    obtain ⟨es', hes, h⟩ := bind_eq_ok.1 h
    obtain rfl := Except.ok.inj h
    obtain ⟨hkeys, hlast⟩ := dumps_redactEntries es room hes
    refine ⟨by rw [List.map_cons, hkeys, keyTexts, keyTexts, List.map_cons], ?_⟩
    rw [LastEntries, EntriesHaveJson, hkeys, hlast, dumps_redactValue v room _ hv]

end

end

section
variable {lib} {f : ℕ → Str → Except PythonError Str} {room : ℕ}

/-- A parsed fragment is rewritten when its texts are redacted and its value has a JSON
form. -/
theorem rewritten_iff {fragment : Str} {v : Data} (h : parseSerialized lib fragment = .ok (some v)) :
    Rewritten lib f room fragment ↔ TextsClean lib (fun room s => Returns (f room s)) room [] v ∧ HasJson lib [] v := by
  rw [← redactValue_returns]
  constructor
  · rintro ⟨w, v', text, hparsed, hredact, hdumps⟩
    obtain rfl : v = w := by
      rw [h] at hparsed
      exact Option.some.inj (Except.ok.inj hparsed)
    exact ⟨⟨v', hredact⟩, (dumps_redactValue v room [] hredact).1 ⟨text, hdumps⟩⟩
  · rintro ⟨⟨v', hredact⟩, hjson⟩
    obtain ⟨text, hdumps⟩ := (dumps_redactValue v room [] hredact).2 hjson
    exact ⟨v, v', text, h, hredact, hdumps⟩

/-- The loop over the fragments returns when they are clean. -/
theorem redactFragments_returns (n : ℕ) : ∀ (before : Option Char) (value : Str),
    Returns (redactFragments lib f room n before value) ↔
      FragmentsClean lib (fun room s => Returns (f room s)) room (fragments n before value).1 := by
  induction n with
  | zero => exact fun _ _ => iff_of_true (returns_ok _) trivial
  | succ n ih =>
    intro before value
    rw [redactFragments, fragments]
    cases nextRound before value with
    | finished plain => exact iff_of_true (returns_ok _) trivial
    | unclosed => exact iff_of_true (returns_ok _) trivial
    | skipped plain rest => exact returns_map.trans (ih _ _)
    | found plain fragment rest =>
      simp only [FragmentsClean]
      cases hparsed : parseSerialized lib fragment with
      | error e => exact iff_of_false (fun h => by obtain ⟨r, hr⟩ := h; cases hr) id
      | ok parsed =>
        cases parsed with
        | none => exact iff_of_true (returns_ok _) trivial
        | some v =>
          simp only
          rw [← and_assoc, ← rewritten_iff hparsed, ← ih]
          constructor
          · intro h
            obtain ⟨_, ⟨⟩, h⟩ := returns_bind.1 h
            obtain ⟨v', hv, h⟩ := returns_bind.1 h
            obtain ⟨text, htext, h⟩ := returns_bind.1 h
            exact ⟨⟨v, v', text, hparsed, hv, htext⟩, returns_map.1 h⟩
          · rintro ⟨⟨w, v', text, hw, hv, htext⟩, h⟩
            obtain rfl : v = w := by
              rw [hparsed] at hw
              exact Option.some.inj (Except.ok.inj hw)
            exact returns_bind.2 ⟨_, rfl, returns_bind.2 ⟨v', hv,
              returns_bind.2 ⟨text, htext, returns_map.2 h⟩⟩⟩

/-- The loop returns early when a container has no end or a fragment is not rewritten. -/
theorem redactFragments_none (n : ℕ) : ∀ (before : Option Char) (value : Str) {r : Option Str},
    redactFragments lib f room n before value = .ok r →
      ((fragments n before value).2 = false ∨
        ∃ fragment ∈ (fragments n before value).1, ¬ Rewritten lib f room fragment) → r = none := by
  induction n with
  | zero =>
    intro before value r h _
    exact (Except.ok.inj h).symm
  | succ n ih =>
    intro before value r h hfails
    rw [redactFragments] at h
    rw [fragments] at hfails
    cases hround : nextRound before value with
    | finished plain => simp [hround] at hfails
    | unclosed =>
      rw [hround] at h
      exact (Except.ok.inj h).symm
    | skipped plain rest =>
      rw [hround] at h hfails
      obtain ⟨more, hmore, h⟩ := bind_eq_ok.1 h
      obtain rfl := ih _ _ hmore hfails
      exact (Except.ok.inj h).symm
    | found plain fragment rest =>
      rw [hround] at h hfails
      obtain ⟨parsed, hparsed, h⟩ := bind_eq_ok.1 h
      cases parsed with
      | none => exact (Except.ok.inj h).symm
      | some v =>
        obtain ⟨v', hv, h⟩ := bind_eq_ok.1 h
        obtain ⟨text, htext, h⟩ := bind_eq_ok.1 h
        obtain ⟨more, hmore, h⟩ := bind_eq_ok.1 h
        have hrewritten : Rewritten lib f room fragment := ⟨v, v', text, hparsed, hv, htext⟩
        have hrest : (fragments n fragment.getLast? rest).2 = false ∨
            ∃ fragment' ∈ (fragments n fragment.getLast? rest).1, ¬ Rewritten lib f room fragment' := by
          rcases hfails with hclosed | ⟨fragment', hmem, hnot⟩
          · exact .inl hclosed
          · rcases List.mem_cons.1 hmem with rfl | hmem
            · exact absurd hrewritten hnot
            · exact .inr ⟨fragment', hmem, hnot⟩
        obtain rfl := ih _ _ hmore hrest
        exact (Except.ok.inj h).symm

end

section
variable {lib}

theorem redactWithin_returns (n room : ℕ) (value : Str) :
    Returns (redactWithin lib n room value) ↔ CleanWithin lib n room value := by
  induction n generalizing room value with
  | zero => exact iff_of_true (returns_ok _) trivial
  | succ n ih =>
    have hclean : (fun room s => Returns (redactWithin lib n room s)) = CleanWithin lib n := by
      funext room s
      exact propext (ih room s)
    rw [CleanWithin, ← hclean, fragmentsOf, ← redactFragments_returns, redactWithin]
    constructor
    · intro h
      obtain ⟨structured, hstructured, -⟩ := returns_bind.1 h
      exact ⟨structured, hstructured⟩
    · rintro ⟨structured, hstructured⟩
      exact returns_bind.2 ⟨structured, hstructured, by cases structured <;> exact returns_ok _⟩

theorem returns_eq_cleanAt : (fun room s => Returns (redactAt lib room s)) = CleanAt lib := by
  funext room s
  exact propext (redactWithin_returns _ room s)

/-- The texts in the fragments of a text are clean themselves. -/
theorem clean_iff (value : Str) :
    Clean lib value ↔ FragmentsClean lib (CleanAt lib) lib.room (fragmentsOf value).1 := by
  rw [Clean, CleanAt, ← redactWithin_returns, ← returns_eq_cleanAt, fragmentsOf, ← redactFragments_returns]
  change Returns (redactRuntimeValue lib value) ↔ _
  rw [redactRuntimeValue_eq]
  constructor
  · intro h
    obtain ⟨structured, hstructured, -⟩ := returns_bind.1 h
    exact ⟨structured, hstructured⟩
  · rintro ⟨structured, hstructured⟩
    exact returns_bind.2 ⟨structured, hstructured, by cases structured <;> exact returns_ok _⟩

/-- Redaction fails closed on exactly the texts that are clean. -/
theorem failsClosed_iff (value : Str) : FailsClosed lib value ↔ Clean lib value := by
  rw [Clean, CleanAt, ← redactWithin_returns]
  constructor
  · rintro ⟨r, hr, -⟩
    exact ⟨r, hr⟩
  · rintro ⟨r, hr⟩
    refine ⟨r, hr, fun hfails => ?_⟩
    have heq : redactRuntimeValue lib value = .ok r := hr
    rw [redactRuntimeValue_eq] at heq
    obtain ⟨structured, hstructured, h⟩ := bind_eq_ok.1 heq
    obtain rfl := redactFragments_none _ _ _ hstructured hfails
    exact (Except.ok.inj h).symm

end

/-- A library that reads one text, and that as a Python literal. -/
def literalLibrary (source : Str) (v : Data) (h : ∀ leaf ∈ leaves v, leaf.length < source.length) :
    Library where
  loads _ := .error .invalid
  literalEval s := if s = source then .ok v else .error .invalid
  room := 1000
  wordChar _ := false
  printable _ := false
  loads_shorter := nothing_shorter
  literalEval_shorter := by
    intro s w hw
    split_ifs at hw with hs
    obtain rfl := Except.ok.inj hw
    subst hs
    exact h

def bytesList : Str := "[1, b'x']".toList

theorem bytesList_raises : ¬ FailsClosed
    (literalLibrary bytesList (.list [.int 1, .bytes [0x78]]) (by simp [leaves, itemLeaves]))
    bytesList := by
  rintro ⟨r, hr, -⟩
  have hraises : redactRuntimeValue (literalLibrary bytesList (.list [.int 1, .bytes [0x78]])
      (by simp [leaves, itemLeaves])) bytesList = .error .typeError := by decide +kernel
  rw [hraises] at hr
  cases hr

end BitcoinRpcOperator.Redaction
