import BitcoinRpcOperator.RedactionScanning
import BitcoinRpcOperator.RedactionFailures

/-!
# Redaction of JSON-like structures

Redaction does not depend on what stands beneath sensitive keys, neither in memory nor in the
text that `json.dumps` makes of a structure.
-/

namespace BitcoinRpcOperator.Redaction
open Text PythonValues

def keyName : Data → Str
  | .str s => s
  | _ => []

/-- A finite float, by what its text looks like. -/
def FiniteFloat (text : Str) : Prop :=
  (∃ c rest, text = c :: rest ∧ (c.isDigit ∨ c = '-')) ∧
    ∀ c ∈ text, c.isDigit ∨ c = '-' ∨ c = '+' ∨ c = '.' ∨ c = 'e'

mutual

/-- Mappings with distinct string keys, lists, tuples, strings, numbers, booleans and null. -/
def JsonLike : Data → Prop
  | .dict es => EntriesLike es
  | .list xs => ItemsLike xs
  | .tuple xs => ItemsLike xs
  | .none | .bool _ | .int _ | .str _ => True
  | .float text => FiniteFloat text
  | .ellipsis | .complex _ | .bytes _ | .set _ => False

def ItemsLike : List Data → Prop
  | [] => True
  | x :: xs => JsonLike x ∧ ItemsLike xs

def EntriesLike : List (Data × Data) → Prop
  | [] => True
  | (.str k, v) :: es => JsonLike v ∧ k ∉ es.map (fun e => keyName e.1) ∧ EntriesLike es
  | _ :: _ => False

end

def inOrder (es : List (Data × Data)) : List (Data × Data) :=
  es.insertionSort fun a b => strLe (keyName a.1) (keyName b.1)

mutual

/-- A structure without what is beneath hidden keys, and without the order of entries. -/
def masked (hidden : Str → Bool) : Data → Data
  | .dict es => .dict (inOrder (maskedEntries hidden es))
  | .list xs => .list (maskedItems hidden xs)
  | .tuple xs => .tuple (maskedItems hidden xs)
  | v => v

def maskedItems (hidden : Str → Bool) : List Data → List Data
  | [] => []
  | x :: xs => masked hidden x :: maskedItems hidden xs

def maskedEntries (hidden : Str → Bool) : List (Data × Data) → List (Data × Data)
  | [] => []
  | (k, v) :: es =>
    (k, if hidden (keyName k) then .none else masked hidden v) :: maskedEntries hidden es

end

/-- Equal except for what is beneath hidden keys. -/
def EqualUpTo (hidden : Str → Bool) (v w : Data) : Prop := masked hidden v = masked hidden w

def ordered : Data → Data := masked fun _ => false

mutual

/-- What `json.loads` makes of the tuples that `json.dumps` writes. -/
def listed : Data → Data
  | .dict es => .dict (listedEntries es)
  | .list xs => .list (listedItems xs)
  | .tuple xs => .list (listedItems xs)
  | v => v

def listedItems : List Data → List Data
  | [] => []
  | x :: xs => listed x :: listedItems xs

def listedEntries : List (Data × Data) → List (Data × Data)
  | [] => []
  | (k, v) :: es => (k, listed v) :: listedEntries es

end

theorem strLe_total (a b : Str) : strLe a b ∨ strLe b a := by
  induction a generalizing b with
  | nil => exact .inl rfl
  | cons c s ih =>
    cases b with
    | nil => exact .inr rfl
    | cons d t =>
      simp only [strLe, Bool.or_eq_true, Bool.and_eq_true, decide_eq_true_eq, beq_iff_eq]
      rcases ih t with h | h
      · rcases Nat.lt_trichotomy c.toNat d.toNat with hlt | heq | hgt
        · exact .inl (.inl hlt)
        · exact .inl (.inr ⟨heq, h⟩)
        · exact .inr (.inl hgt)
      · rcases Nat.lt_trichotomy c.toNat d.toNat with hlt | heq | hgt
        · exact .inl (.inl hlt)
        · exact .inr (.inr ⟨heq.symm, h⟩)
        · exact .inr (.inl hgt)

theorem strLe_trans {a b c : Str} (hab : strLe a b) (hbc : strLe b c) : strLe a c := by
  induction a generalizing b c with
  | nil => rfl
  | cons x s ih =>
    cases b with
    | nil => cases hab
    | cons y t =>
      cases c with
      | nil => cases hbc
      | cons z u =>
        simp only [strLe, Bool.or_eq_true, Bool.and_eq_true, decide_eq_true_eq, beq_iff_eq]
          at hab hbc ⊢
        rcases hab with hlt | ⟨heq, hst⟩
        · rcases hbc with hlt' | ⟨heq', -⟩
          · exact .inl (hlt.trans hlt')
          · exact .inl (heq' ▸ hlt)
        · rcases hbc with hlt' | ⟨heq', htu⟩
          · exact .inl (heq ▸ hlt')
          · exact .inr ⟨heq.trans heq', ih hst htu⟩

section
variable {α β : Type} {key : α → Str} {key' : β → Str}

/-- Sorting by a key what is sorted changes nothing. -/
theorem insertionSort_twice (key : α → Str) (l : List α) :
    (l.insertionSort fun a b => strLe (key a) (key b)).insertionSort
        (fun a b => strLe (key a) (key b)) =
      l.insertionSort fun a b => strLe (key a) (key b) := by
  have : Std.Total fun a b : α => strLe (key a) (key b) = true := ⟨fun a b => strLe_total _ _⟩
  have : IsTrans α fun a b => strLe (key a) (key b) = true := ⟨fun _ _ _ => strLe_trans⟩
  exact (List.pairwise_insertionSort _ l).insertionSort_eq

/-- Mapping entries without changing their keys goes through sorting. -/
theorem map_insertionSort_key (f : α → β) (hf : ∀ a, key' (f a) = key a) (l : List α) :
    (l.insertionSort fun a b => strLe (key a) (key b)).map f =
      (l.map f).insertionSort fun a b => strLe (key' a) (key' b) :=
  List.map_insertionSort _ _ f l fun a _ b _ => by rw [hf, hf]

end

/-- What redaction shows of a value under a key. -/
def veil (key : Str) (value : Data) : Data := if keyIsSensitive key then .str redacted else value

mutual

/-- `_redact_value` of a structure, where `redact` stands for the redaction of its texts. -/
def shown (redact : ℕ → Str → Str) (room : ℕ) (key : Str) : Data → Data
  | .dict es => veil key (.dict (shownEntries redact (room - 1) es))
  | .list xs => veil key (.list (shownItems redact (room - 1) xs))
  | .tuple xs => veil key (.tuple (shownItems redact (room - 1) xs))
  | .str s => veil key (.str (redact room s))
  | v => veil key v

def shownItems (redact : ℕ → Str → Str) (room : ℕ) : List Data → List Data
  | [] => []
  | x :: xs => shown redact room [] x :: shownItems redact room xs

def shownEntries (redact : ℕ → Str → Str) (room : ℕ) : List (Data × Data) → List (Data × Data)
  | [] => []
  | (k, v) :: es => (.str (keyName k), shown redact room (keyName k) v) :: shownEntries redact room es

end

/-- Two keys with the same masked values under them. -/
theorem maskedEntries_eq_map (hidden : Str → Bool) (es : List (Data × Data)) :
    maskedEntries hidden es =
      es.map fun e => (e.1, if hidden (keyName e.1) then .none else masked hidden e.2) := by
  induction es with
  | nil => rfl
  | cons e es ih => rw [maskedEntries, ih, List.map_cons]

theorem shownEntries_eq_map (redact : ℕ → Str → Str) (room : ℕ) (es : List (Data × Data)) :
    shownEntries redact room es =
      es.map fun e => (.str (keyName e.1), shown redact room (keyName e.1) e.2) := by
  induction es with
  | nil => rfl
  | cons e es ih => rw [shownEntries, ih, List.map_cons]

theorem maskedItems_eq_map (hidden : Str → Bool) (xs : List Data) :
    maskedItems hidden xs = xs.map (masked hidden) := by
  induction xs with
  | nil => rfl
  | cons x xs ih => rw [maskedItems, ih, List.map_cons]

theorem shownItems_eq_map (redact : ℕ → Str → Str) (room : ℕ) (xs : List Data) :
    shownItems redact room xs = xs.map (shown redact room []) := by
  induction xs with
  | nil => rfl
  | cons x xs ih => rw [shownItems, ih, List.map_cons]

theorem ordered_veil (key : Str) (v : Data) : ordered (veil key v) = veil key (ordered v) := by
  unfold veil
  split <;> rfl

theorem ordered_dict (es : List (Data × Data)) :
    ordered (.dict es) = .dict (inOrder (es.map fun e => (e.1, ordered e.2))) := by
  rw [ordered, masked, maskedEntries_eq_map]
  rfl

theorem ordered_list (xs : List Data) : ordered (.list xs) = .list (xs.map ordered) := by
  rw [ordered, masked, maskedItems_eq_map]

theorem ordered_tuple (xs : List Data) : ordered (.tuple xs) = .tuple (xs.map ordered) := by
  rw [ordered, masked, maskedItems_eq_map]

theorem inOrder_map {f : Data × Data → Data × Data} (hf : ∀ e, keyName (f e).1 = keyName e.1)
    (es : List (Data × Data)) : inOrder (es.map f) = (inOrder es).map f :=
  (map_insertionSort_key f hf es).symm

theorem inOrder_twice (es : List (Data × Data)) : inOrder (inOrder es) = inOrder es :=
  insertionSort_twice (fun e : Data × Data => keyName e.1) es

theorem shown_hidden {redact : ℕ → Str → Str} {room : ℕ} {key : Str} (h : keyIsSensitive key) (v : Data) :
    shown redact room key v = .str redacted := by
  have hveil : ∀ w, veil key w = .str redacted := fun w => if_pos h
  cases v <;> exact hveil _

section
variable {redact : ℕ → Str → Str}

mutual

/-- What is beneath sensitive keys does not show, nor does the order of entries. -/
theorem ordered_shown : ∀ (v : Data) (room : ℕ) (key : Str),
    ordered (shown redact room key (masked keyIsSensitive v)) = ordered (shown redact room key v)
  | .dict es, room, key => by
    have hentries := ordered_shownEntries es (room - 1)
    have hname : ∀ e : Data × Data, keyName ((fun e : Data × Data =>
        (Data.str (keyName e.1), ordered (shown redact (room - 1) (keyName e.1) e.2))) e).1 = keyName e.1 :=
      fun _ => rfl
    rw [masked, shown, shown, ordered_veil, ordered_veil, ordered_dict, ordered_dict,
      shownEntries_eq_map, shownEntries_eq_map, List.map_map, List.map_map]
    refine congrArg (fun es => veil key (.dict es)) ?_
    calc inOrder ((inOrder (maskedEntries keyIsSensitive es)).map fun e =>
          (.str (keyName e.1), ordered (shown redact (room - 1) (keyName e.1) e.2)))
        = (inOrder (inOrder (maskedEntries keyIsSensitive es))).map fun e =>
            (.str (keyName e.1), ordered (shown redact (room - 1) (keyName e.1) e.2)) := inOrder_map hname _
      _ = (inOrder (maskedEntries keyIsSensitive es)).map fun e =>
            (.str (keyName e.1), ordered (shown redact (room - 1) (keyName e.1) e.2)) := by
          rw [inOrder_twice]
      _ = inOrder ((maskedEntries keyIsSensitive es).map fun e =>
            (.str (keyName e.1), ordered (shown redact (room - 1) (keyName e.1) e.2))) :=
          (inOrder_map hname _).symm
      _ = inOrder (es.map fun e =>
            (.str (keyName e.1), ordered (shown redact (room - 1) (keyName e.1) e.2))) := by
          rw [hentries]
  | .list xs, room, key => by
    rw [masked, shown, shown, ordered_veil, ordered_veil, ordered_list, ordered_list,
      shownItems_eq_map, shownItems_eq_map, List.map_map, List.map_map]
    exact congrArg (fun xs => veil key (.list xs)) (ordered_shownItems xs (room - 1))
  | .tuple xs, room, key => by
    rw [masked, shown, shown, ordered_veil, ordered_veil, ordered_tuple, ordered_tuple,
      shownItems_eq_map, shownItems_eq_map, List.map_map, List.map_map]
    exact congrArg (fun xs => veil key (.tuple xs)) (ordered_shownItems xs (room - 1))
  | .none, _, _ | .ellipsis, _, _ | .bool _, _, _ | .int _, _, _ | .float _, _, _ | .complex _, _, _
  | .str _, _, _ | .bytes _, _, _ | .set _, _, _ => rfl

theorem ordered_shownItems : ∀ (xs : List Data) (room : ℕ),
    (maskedItems keyIsSensitive xs).map (ordered ∘ shown redact room []) =
      xs.map (ordered ∘ shown redact room [])
  | [], _ => rfl
  | x :: xs, room => by
    rw [maskedItems, List.map_cons, List.map_cons, ordered_shownItems xs room, Function.comp_apply,
      Function.comp_apply, ordered_shown x room []]

theorem ordered_shownEntries : ∀ (es : List (Data × Data)) (room : ℕ),
    (maskedEntries keyIsSensitive es).map (fun e =>
        (Data.str (keyName e.1), ordered (shown redact room (keyName e.1) e.2))) =
      es.map fun e => (.str (keyName e.1), ordered (shown redact room (keyName e.1) e.2))
  | [], _ => rfl
  | (k, v) :: es, room => by
    rw [maskedEntries, List.map_cons, List.map_cons, ordered_shownEntries es room]
    refine congrArg (fun shown => (Data.str (keyName k), shown) :: _) ?_
    by_cases hk : keyIsSensitive (keyName k)
    · rw [shown_hidden hk, shown_hidden hk]
    · simp only [hk, if_false, Bool.false_eq_true]
      exact ordered_shown v room (keyName k)

end

end

section
variable {lib : Library} {f : ℕ → Str → Except PythonError Str}

def returned (f : ℕ → Str → Except PythonError Str) (room : ℕ) (s : Str) : Str :=
  match f room s with
  | .ok r => r
  | .error _ => []

theorem returned_eq {room : ℕ} {s : Str} (h : Returns (f room s)) : f room s = .ok (returned f room s) := by
  obtain ⟨r, hr⟩ := h
  rw [returned, hr]

theorem toOption_raised {α : Type} {x : Except PythonError α} (h : ¬ Returns x) : x.toOption = none := by
  cases x with
  | ok a => exact absurd (returns_ok a) h
  | error e => rfl

theorem hide_ok (key : Str) (v : Data) : hide key (.ok v) = .ok (veil key v) := by
  unfold hide veil
  split <;> rfl

theorem assign_new {key : Str} {es : List (Str × Data)} (h : key ∉ es.map (·.1)) (v : Data) :
    assign key v es = es ++ [(key, v)] := by
  induction es with
  | nil => rfl
  | cons e es ih =>
    obtain ⟨k, w⟩ := e
    rw [List.map_cons, List.mem_cons, not_or] at h
    rw [assign, if_neg fun hk => h.1 hk.symm, ih h.2, List.cons_append]

theorem foldl_assign_append (es : List (Str × Data)) : ∀ acc : List (Str × Data),
    ((acc ++ es).map (·.1)).Nodup →
      es.foldl (fun es e => assign e.1 e.2 es) acc = acc ++ es := by
  induction es with
  | nil =>
    intro acc _
    rw [List.append_nil]
    rfl
  | cons e es ih =>
    intro acc h
    have hnew : e.1 ∉ acc.map (·.1) := by
      rw [List.map_append, List.nodup_append] at h
      intro hmem
      exact h.2.2 _ hmem e.1 (by simp) rfl
    rw [List.foldl_cons, assign_new hnew, ih _ (by simpa using h), List.append_assoc]
    rfl

/-- Distinct keys stay as they are. -/
theorem dictOf_distinct {es : List (Str × Data)} (h : (es.map (·.1)).Nodup) :
    dictOf es = .dict (es.map fun e => (.str e.1, e.2)) := by
  rw [dictOf, foldl_assign_append es [] (by simpa using h), List.nil_append]

theorem entriesLike_nodup {es : List (Data × Data)} (h : EntriesLike es) :
    (es.map fun e => keyName e.1).Nodup := by
  induction es with
  | nil => exact .nil
  | cons e es ih =>
    match e, h with
    | (.str k, v), h => exact List.nodup_cons.2 ⟨h.2.1, ih h.2.2⟩

theorem descend_pos {α : Type} {room : ℕ} (h : 0 < room) (inside : ℕ → Except PythonError α) :
    descend room inside = inside (room - 1) := by
  obtain ⟨room, rfl⟩ := Nat.exists_eq_add_one_of_ne_zero h.ne'
  rfl

mutual

/-- When its texts are redacted, a structure is redacted to what it shows. -/
theorem redactValue_shown : ∀ (v : Data) (room : ℕ) (key : Str), JsonLike v →
    TextsClean lib (fun room s => Returns (f room s)) room key v →
      redactValue lib f room key v = .ok (shown (returned f) room key v)
  | .dict es, room, key, hlike, hclean => by
    rw [redactValue, shown]
    by_cases hkey : keyIsSensitive key
    · rw [hide_sensitive hkey, veil, if_pos hkey]
    · obtain ⟨hroom, hclean⟩ := hclean.resolve_left hkey
      have hentries := redactEntries_shown es (room - 1) hlike hclean
      have hdistinct : ((es.map fun e =>
          (keyName e.1, shown (returned f) (room - 1) (keyName e.1) e.2)).map (·.1)).Nodup := by
        rw [List.map_map]
        exact entriesLike_nodup hlike
      rw [descend_pos hroom, hentries]
      change hide key (.ok (dictOf _)) = _
      rw [hide_ok, dictOf_distinct hdistinct, List.map_map, shownEntries_eq_map]
      rfl
  | .list xs, room, key, hlike, hclean => by
    rw [redactValue, shown]
    by_cases hkey : keyIsSensitive key
    · rw [hide_sensitive hkey, veil, if_pos hkey]
    · obtain ⟨hroom, hclean⟩ := hclean.resolve_left hkey
      rw [descend_pos hroom, redactItems_shown xs (room - 1) hlike hclean]
      exact hide_ok key _
  | .tuple xs, room, key, hlike, hclean => by
    rw [redactValue, shown]
    by_cases hkey : keyIsSensitive key
    · rw [hide_sensitive hkey, veil, if_pos hkey]
    · obtain ⟨hroom, hclean⟩ := hclean.resolve_left hkey
      rw [descend_pos hroom, redactItems_shown xs (room - 1) hlike hclean]
      exact hide_ok key _
  | .str s, room, key, _, hclean => by
    rw [redactValue, shown]
    by_cases hkey : keyIsSensitive key
    · rw [hide_sensitive hkey, veil, if_pos hkey]
    · rw [returned_eq (hclean.resolve_left hkey)]
      exact hide_ok key _
  | .none, _, key, _, _ => hide_ok key _
  | .bool _, _, key, _, _ => hide_ok key _
  | .int _, _, key, _, _ => hide_ok key _
  | .float _, _, key, _, _ => hide_ok key _

theorem redactItems_shown : ∀ (xs : List Data) (room : ℕ), ItemsLike xs →
    ItemTextsClean lib (fun room s => Returns (f room s)) room xs →
      redactItems lib f room xs = .ok (shownItems (returned f) room xs)
  | [], _, _, _ => rfl
  | x :: xs, room, hlike, hclean => by
    rw [redactItems, redactValue_shown x room [] hlike.1 hclean.1,
      redactItems_shown xs room hlike.2 hclean.2]
    rfl

theorem redactEntries_shown : ∀ (es : List (Data × Data)) (room : ℕ), EntriesLike es →
    EntryTextsClean lib (fun room s => Returns (f room s)) room es →
      redactEntries lib f room es =
        .ok (es.map fun e => (keyName e.1, shown (returned f) room (keyName e.1) e.2))
  | [], _, _, _ => rfl
  | (.str k, v) :: es, room, hlike, hclean => by
    have hname : strOf lib.printable (.str k) = .ok k := rfl
    rw [redactEntries, hname, redactEntries_shown es room hlike.2.2 hclean.2.2]
    change (redactValue lib f room k v).bind _ = _
    rw [redactValue_shown v room k hlike.1 hclean.2.1]
    rfl

end

theorem textsClean_hidden {clean : ℕ → Str → Prop} {room : ℕ} {key : Str} (h : keyIsSensitive key) (v : Data) :
    TextsClean lib clean room key v := by
  cases v <;> first | exact .inl h | trivial

theorem entryTextsClean_iff {clean : ℕ → Str → Prop} {room : ℕ} (es : List (Data × Data)) :
    EntryTextsClean lib clean room es ↔
      ∀ e ∈ es, intsFit e.1 ∧ TextsClean lib clean room (text lib.printable e.1) e.2 := by
  induction es with
  | nil => simp [EntryTextsClean]
  | cons e es ih => rw [EntryTextsClean, ih, List.forall_mem_cons, and_assoc]

mutual

/-- What is beneath sensitive keys has no texts to redact. -/
theorem textsClean_masked {clean : ℕ → Str → Prop} : ∀ (v : Data) (room : ℕ) (key : Str), JsonLike v →
    (TextsClean lib clean room key (masked keyIsSensitive v) ↔ TextsClean lib clean room key v)
  | .dict es, room, key, hlike => by
    have hperm : ∀ e, e ∈ inOrder (maskedEntries keyIsSensitive es) ↔
        e ∈ maskedEntries keyIsSensitive es := fun e => List.mem_insertionSort _
    rw [masked, TextsClean, TextsClean, ← entryTextsClean_masked es (room - 1) hlike, entryTextsClean_iff,
      entryTextsClean_iff]
    simp only [hperm]
  | .list xs, room, key, hlike => by
    rw [masked, TextsClean, TextsClean, itemTextsClean_masked xs (room - 1) hlike]
  | .tuple xs, room, key, hlike => by
    rw [masked, TextsClean, TextsClean, itemTextsClean_masked xs (room - 1) hlike]
  | .none, _, _, _ | .bool _, _, _, _ | .int _, _, _, _ | .float _, _, _, _ | .str _, _, _, _ => Iff.rfl

theorem itemTextsClean_masked {clean : ℕ → Str → Prop} : ∀ (xs : List Data) (room : ℕ), ItemsLike xs →
    (ItemTextsClean lib clean room (maskedItems keyIsSensitive xs) ↔ ItemTextsClean lib clean room xs)
  | [], _, _ => Iff.rfl
  | x :: xs, room, hlike => by
    rw [maskedItems, ItemTextsClean, ItemTextsClean, textsClean_masked x room [] hlike.1,
      itemTextsClean_masked xs room hlike.2]

theorem entryTextsClean_masked {clean : ℕ → Str → Prop} : ∀ (es : List (Data × Data)) (room : ℕ),
    EntriesLike es →
      (EntryTextsClean lib clean room (maskedEntries keyIsSensitive es) ↔ EntryTextsClean lib clean room es)
  | [], _, _ => Iff.rfl
  | (.str k, v) :: es, room, hlike => by
    rw [maskedEntries, EntryTextsClean, EntryTextsClean, entryTextsClean_masked es room hlike.2.2]
    refine and_congr_right fun _ => and_congr_left fun _ => ?_
    by_cases hk : keyIsSensitive k
    · exact iff_of_true (textsClean_hidden hk _) (textsClean_hidden hk _)
    · simp only [keyName, hk, if_false, Bool.false_eq_true]
      exact textsClean_masked v room k hlike.1

end

/-- Redaction does not depend on what is beneath sensitive keys. -/
theorem redactValue_noninterference {x y : Data} (room : ℕ) (hx : JsonLike x) (hy : JsonLike y)
    (h : EqualUpTo keyIsSensitive x y) :
    (redactValue lib f room [] x).toOption.map ordered = (redactValue lib f room [] y).toOption.map ordered := by
  have hclean : TextsClean lib (fun room s => Returns (f room s)) room [] x ↔
      TextsClean lib (fun room s => Returns (f room s)) room [] y := by
    rw [← textsClean_masked x room [] hx, ← textsClean_masked y room [] hy, h]
  by_cases hreturns : TextsClean lib (fun room s => Returns (f room s)) room [] x
  · have hshown : ordered (shown (returned f) room [] x) = ordered (shown (returned f) room [] y) := by
      rw [← ordered_shown x, ← ordered_shown y, h]
    rw [redactValue_shown x room [] hx hreturns, redactValue_shown y room [] hy (hclean.1 hreturns)]
    exact congrArg some hshown
  · rw [toOption_raised fun hr => hreturns ((redactValue_returns x room []).1 hr),
      toOption_raised fun hr => hreturns (hclean.2 ((redactValue_returns y room []).1 hr))]

end

mutual

def jsonText (style : Style) : Data → Str
  | .none => "null".toList
  | .bool true => "true".toList
  | .bool false => "false".toList
  | .int n => intText n
  | .float text => jsonFloat text
  | .str s => jsonString s
  | .list xs => '[' :: joined style.item (jsonItems style xs) ++ [']']
  | .tuple xs => '[' :: joined style.item (jsonItems style xs) ++ [']']
  | .dict es =>
    '\x7b' :: joined style.item ((style.order (jsonEntries style es)).map style.entryText) ++ ['\x7d']
  | _ => []

def jsonItems (style : Style) : List Data → List Str
  | [] => []
  | x :: xs => jsonText style x :: jsonItems style xs

def jsonEntries (style : Style) : List (Data × Data) → List (Str × Str)
  | [] => []
  | (k, v) :: es => (keyName k, jsonText style v) :: jsonEntries style es

end

section
variable {style : Style}

mutual

theorem dumps_like : ∀ v : Data, JsonLike v → intsFit v → dumps style v = .ok (jsonText style v)
  | .dict es, h, hfit => by
    rw [dumps, dumpsEntries_like es h hfit]
    rfl
  | .list xs, h, hfit => by
    rw [dumps, dumpsItems_like xs h hfit]
    rfl
  | .tuple xs, h, hfit => by
    rw [dumps, dumpsItems_like xs h hfit]
    rfl
  | .int n, _, hfit => if_pos hfit
  | .none, _, _ | .bool true, _, _ | .bool false, _, _ | .float _, _, _ | .str _, _, _ => rfl

theorem dumpsItems_like : ∀ xs : List Data, ItemsLike xs → itemsFit xs →
    dumpsItems style xs = .ok (jsonItems style xs)
  | [], _, _ => rfl
  | x :: xs, h, hfit => by
    rw [itemsFit, Bool.and_eq_true] at hfit
    rw [dumpsItems, dumps_like x h.1 hfit.1, dumpsItems_like xs h.2 hfit.2]
    rfl

theorem dumpsEntries_like : ∀ es : List (Data × Data), EntriesLike es → entriesFit es →
    dumpsEntries style es = .ok (jsonEntries style es)
  | [], _, _ => rfl
  | (.str k, v) :: es, h, hfit => by
    rw [entriesFit, Bool.and_eq_true, Bool.and_eq_true] at hfit
    rw [dumpsEntries, dumps_like v h.1 hfit.1.2, dumpsEntries_like es h.2.2 hfit.2]
    rfl

end

mutual

/-- An integer with too many digits has no text. -/
theorem dumps_unfit : ∀ v : Data, JsonLike v → Returns (dumps style v) → intsFit v
  | .dict es, h, hreturns => by
    rw [dumps] at hreturns
    exact dumpsEntries_unfit es h (returns_map.1 hreturns)
  | .list xs, h, hreturns => by
    rw [dumps] at hreturns
    exact dumpsItems_unfit xs h (returns_map.1 hreturns)
  | .tuple xs, h, hreturns => by
    rw [dumps] at hreturns
    exact dumpsItems_unfit xs h (returns_map.1 hreturns)
  | .int n, _, hreturns => by
    by_contra hfit
    have hlong : intFits n = false := Bool.eq_false_of_not_eq_true hfit
    obtain ⟨t, ht⟩ := hreturns
    rw [dumps, intStr, hlong] at ht
    cases ht
  | .none, _, _ | .bool true, _, _ | .bool false, _, _ | .float _, _, _ | .str _, _, _ => rfl

theorem dumpsItems_unfit : ∀ xs : List Data, ItemsLike xs → Returns (dumpsItems style xs) → itemsFit xs
  | [], _, _ => rfl
  | x :: xs, h, hreturns => by
    rw [dumpsItems] at hreturns
    obtain ⟨t, ht, hrest⟩ := returns_bind.1 hreturns
    rw [itemsFit, Bool.and_eq_true]
    exact ⟨dumps_unfit x h.1 ⟨t, ht⟩, dumpsItems_unfit xs h.2 (returns_map.1 hrest)⟩

theorem dumpsEntries_unfit : ∀ es : List (Data × Data), EntriesLike es → Returns (dumpsEntries style es) →
    entriesFit es
  | [], _, _ => rfl
  | (.str k, v) :: es, h, hreturns => by
    rw [dumpsEntries] at hreturns
    obtain ⟨_, -, hreturns⟩ := returns_bind.1 hreturns
    obtain ⟨t, ht, hrest⟩ := returns_bind.1 hreturns
    rw [entriesFit, Bool.and_eq_true, Bool.and_eq_true]
    exact ⟨⟨rfl, dumps_unfit v h.1 ⟨t, ht⟩⟩, dumpsEntries_unfit es h.2.2 (returns_map.1 hrest)⟩

end

/-- `json.dumps` of a structure returns its text or, on a long integer, nothing. -/
theorem dumps_toOption {v : Data} (h : JsonLike v) :
    (dumps style v).toOption = if intsFit v then some (jsonText style v) else none := by
  by_cases hfit : intsFit v
  · rw [if_pos hfit, dumps_like v h hfit]
    rfl
  · rw [if_neg hfit, toOption_raised fun hreturns => hfit (dumps_unfit v h hreturns)]

theorem dumps_eq_ok {v : Data} {t : Str} (h : JsonLike v) (ht : dumps style v = .ok t) : t = jsonText style v := by
  rw [dumps_like v h (dumps_unfit v h ⟨t, ht⟩)] at ht
  exact (Except.ok.inj ht).symm

theorem jsonItems_eq_map (xs : List Data) : jsonItems style xs = xs.map (jsonText style) := by
  induction xs with
  | nil => rfl
  | cons x xs ih => rw [jsonItems, ih, List.map_cons]

theorem jsonEntries_eq_map (es : List (Data × Data)) :
    jsonEntries style es = es.map fun e => (keyName e.1, jsonText style e.2) := by
  induction es with
  | nil => rfl
  | cons e es ih => rw [jsonEntries, ih, List.map_cons]

end

theorem compact_order (es : List (Str × Str)) :
    compactStyle.order es = es.insertionSort fun a b => strLe a.1 b.1 := rfl

mutual

/-- The compact text does not depend on the order of entries. -/
theorem jsonText_ordered : ∀ v : Data, jsonText compactStyle (ordered v) = jsonText compactStyle v
  | .dict es => by
    have hentries := jsonEntries_ordered es
    rw [ordered_dict, jsonText, jsonText, compact_order, compact_order, jsonEntries_eq_map,
      jsonEntries_eq_map]
    have hsort : ((inOrder (es.map fun e => (e.1, ordered e.2))).map fun e =>
          (keyName e.1, jsonText compactStyle e.2)) =
        (es.map fun e => (keyName e.1, jsonText compactStyle e.2)).insertionSort
          fun a b => strLe a.1 b.1 := by
      rw [← hentries, inOrder]
      exact @map_insertionSort_key _ _ _ (fun e : Str × Str => e.1)
        (fun e : Data × Data => (keyName e.1, jsonText compactStyle e.2)) (fun _ => rfl) _
    rw [hsort, insertionSort_twice fun e : Str × Str => e.1]
  | .list xs => by
    rw [ordered_list, jsonText, jsonText, jsonItems_eq_map, jsonItems_eq_map, List.map_map,
      jsonItems_ordered xs]
  | .tuple xs => by
    rw [ordered_tuple, jsonText, jsonText, jsonItems_eq_map, jsonItems_eq_map, List.map_map,
      jsonItems_ordered xs]
  | .none | .ellipsis | .bool _ | .int _ | .float _ | .complex _ | .str _ | .bytes _ | .set _ => rfl

theorem jsonItems_ordered : ∀ xs : List Data,
    xs.map (jsonText compactStyle ∘ ordered) = xs.map (jsonText compactStyle)
  | [] => rfl
  | x :: xs => by
    rw [List.map_cons, List.map_cons, jsonItems_ordered xs, Function.comp_apply, jsonText_ordered x]

theorem jsonEntries_ordered : ∀ es : List (Data × Data),
    ((es.map fun e => (e.1, ordered e.2)).map fun e => (keyName e.1, jsonText compactStyle e.2)) =
      es.map fun e => (keyName e.1, jsonText compactStyle e.2)
  | [] => rfl
  | (k, v) :: es => by
    rw [List.map_cons, List.map_cons, List.map_cons, jsonEntries_ordered es, jsonText_ordered v]

end

theorem like_veil {key : Str} {v : Data} (h : JsonLike v) : JsonLike (veil key v) := by
  unfold veil
  split
  · exact trivial
  · exact h

mutual

/-- What redaction shows of a structure is a structure. -/
theorem like_shown {redact : ℕ → Str → Str} : ∀ (v : Data) (room : ℕ) (key : Str), JsonLike v →
    JsonLike (shown redact room key v)
  | .dict es, _, _, h => like_veil (entriesLike_shown es _ h)
  | .list xs, _, _, h => like_veil (itemsLike_shown xs _ h)
  | .tuple xs, _, _, h => like_veil (itemsLike_shown xs _ h)
  | .none, _, _, h | .bool _, _, _, h | .int _, _, _, h | .float _, _, _, h | .str _, _, _, h => like_veil h

theorem itemsLike_shown {redact : ℕ → Str → Str} : ∀ (xs : List Data) (room : ℕ), ItemsLike xs →
    ItemsLike (shownItems redact room xs)
  | [], _, _ => trivial
  | x :: xs, room, h => ⟨like_shown x room [] h.1, itemsLike_shown xs room h.2⟩

theorem entriesLike_shown {redact : ℕ → Str → Str} : ∀ (es : List (Data × Data)) (room : ℕ), EntriesLike es →
    EntriesLike (shownEntries redact room es)
  | [], _, _ => trivial
  | (.str k, v) :: es, room, h => by
    refine ⟨like_shown v room k h.1, ?_, entriesLike_shown es room h.2.2⟩
    rw [shownEntries_eq_map, List.map_map]
    exact h.2.1

end

mutual

/-- Whether the integers fit does not depend on the order of entries. -/
theorem intsFit_ordered : ∀ v : Data, intsFit (ordered v) = intsFit v
  | .dict es => by
    have hfit : ∀ es : List (Data × Data), entriesFit es = es.all fun e => intsFit e.1 && intsFit e.2 := by
      intro es
      induction es with
      | nil => rfl
      | cons e es ih => rw [entriesFit, List.all_cons, ih]
    have hperm := List.perm_insertionSort (fun a b : Data × Data => strLe (keyName a.1) (keyName b.1))
      (es.map fun e => (e.1, ordered e.2))
    rw [ordered_dict, intsFit, intsFit, hfit, hfit, ← entriesFit_ordered es]
    exact hperm.all_eq
  | .list xs => by
    rw [ordered_list, intsFit, intsFit, itemsFit_ordered xs]
  | .tuple xs => by
    rw [ordered_tuple, intsFit, intsFit, itemsFit_ordered xs]
  | .none | .ellipsis | .bool _ | .int _ | .float _ | .complex _ | .str _ | .bytes _ | .set _ => rfl

theorem itemsFit_ordered : ∀ xs : List Data, itemsFit (xs.map ordered) = itemsFit xs
  | [] => rfl
  | x :: xs => by rw [List.map_cons, itemsFit, itemsFit, intsFit_ordered x, itemsFit_ordered xs]

theorem entriesFit_ordered : ∀ es : List (Data × Data),
    ((es.map fun e => (e.1, ordered e.2)).all fun e => intsFit e.1 && intsFit e.2) =
      es.all fun e => intsFit e.1 && intsFit e.2
  | [] => rfl
  | (k, v) :: es => by
    rw [List.map_cons, List.all_cons, List.all_cons, entriesFit_ordered es, intsFit_ordered v]

end

theorem listedEntries_eq_map (es : List (Data × Data)) :
    listedEntries es = es.map fun e => (e.1, listed e.2) := by
  induction es with
  | nil => rfl
  | cons e es ih => rw [listedEntries, ih, List.map_cons]

mutual

theorem like_listed : ∀ v : Data, JsonLike v → JsonLike (listed v)
  | .dict es, h => entriesLike_listed es h
  | .list xs, h => itemsLike_listed xs h
  | .tuple xs, h => itemsLike_listed xs h
  | .none, h | .bool _, h | .int _, h | .float _, h | .str _, h => h

theorem itemsLike_listed : ∀ xs : List Data, ItemsLike xs → ItemsLike (listedItems xs)
  | [], _ => trivial
  | x :: xs, h => ⟨like_listed x h.1, itemsLike_listed xs h.2⟩

theorem entriesLike_listed : ∀ es : List (Data × Data), EntriesLike es →
    EntriesLike (listedEntries es)
  | [], _ => trivial
  | (.str k, v) :: es, h => by
    refine ⟨like_listed v h.1, ?_, entriesLike_listed es h.2.2⟩
    rw [listedEntries_eq_map, List.map_map]
    exact h.2.1

end

section
variable {hidden : Str → Bool}

mutual

/-- Tuples that become lists change nothing about what is hidden. -/
theorem masked_listed : ∀ v : Data, masked hidden (listed v) = listed (masked hidden v)
  | .dict es => by
    rw [listed, masked, masked, listed, maskedEntries_listed es, listedEntries_eq_map]
    exact congrArg Data.dict (inOrder_map (f := fun e => (e.1, listed e.2)) (fun _ => rfl) _)
  | .list xs => by rw [listed, masked, masked, listed, maskedItems_listed xs]
  | .tuple xs => by rw [listed, masked, masked, listed, maskedItems_listed xs]
  | .none | .ellipsis | .bool _ | .int _ | .float _ | .complex _ | .str _ | .bytes _ | .set _ => rfl

theorem maskedItems_listed : ∀ xs : List Data,
    maskedItems hidden (listedItems xs) = listedItems (maskedItems hidden xs)
  | [] => rfl
  | x :: xs => by
    rw [listedItems, maskedItems, maskedItems, listedItems, masked_listed x, maskedItems_listed xs]

theorem maskedEntries_listed : ∀ es : List (Data × Data),
    maskedEntries hidden (listedEntries es) =
      (maskedEntries hidden es).map fun e => (e.1, listed e.2)
  | [] => rfl
  | (k, v) :: es => by
    rw [listedEntries, maskedEntries, maskedEntries, List.map_cons, maskedEntries_listed es,
      masked_listed v]
    split <;> rfl

end

theorem equalUpTo_listed {x y : Data} (h : EqualUpTo hidden x y) :
    EqualUpTo hidden (listed x) (listed y) := by
  rw [EqualUpTo, masked_listed, masked_listed, h]

end

theorem hexDigit_mem (n : ℕ) : hexDigit n ∈ "0123456789abcdef".toList := by
  rw [hexDigit, List.getD_eq_getElem?_getD]
  cases h : "0123456789abcdef".toList[n]? with
  | none => decide
  | some d => exact List.mem_of_getElem? h

/-- Letters and digits that change nothing between quotes. -/
theorem quoted_hex {q : Char} (hq : isQuote q) (count n : ℕ) : Quoted q (hex count n) := by
  have hdigits : ∀ d ∈ "0123456789abcdef".toList, ∀ q, isQuote q → d ≠ q ∧ d ≠ '\\' := by
    intro d hd q hq
    rcases (by simpa [isQuote] using hq : q = '\'' ∨ q = '"') with rfl | rfl <;>
      revert d <;> decide
  unfold hex
  induction (List.range count).reverse with
  | nil => exact .nil
  | cons i is ih =>
    obtain ⟨hne, hslash⟩ := hdigits _ (hexDigit_mem (n / 16 ^ i % 16)) q hq
    exact .plain hne hslash ih

theorem quoted_jsonChar (c : Char) : Quoted '"' (jsonChar c) := by
  unfold jsonChar
  split
  · exact .escape .nil
  · next hspecial =>
    split_ifs
    · exact .escape .nil
    · exact .escape .nil
    · exact .escape .nil
    · exact .escape .nil
    · exact .escape .nil
    · have hne : c ≠ '"' ∧ c ≠ '\\' := by simpa using hspecial
      exact .plain hne.1 hne.2 .nil
    · unfold unicodeEscape
      split
      · exact .escape (quoted_hex (by decide) _ _)
      · refine Quoted.append ?_ (quoted_hex (by decide) _ _)
        refine Quoted.append ?_ (.escape .nil)
        exact .escape (quoted_hex (by decide) _ _)

theorem Quoted.flatMap {q : Char} {f : Char → Str} (h : ∀ c, Quoted q (f c)) (s : Str) :
    Quoted q (s.flatMap f) := by
  induction s with
  | nil => exact .nil
  | cons c s ih => exact (h c).append ih

theorem balanced_jsonString (s : Str) : Balanced (jsonString s) :=
  .quote (by decide) (.flatMap quoted_jsonChar s)

theorem isInert_digit {c : Char} (h : c.isDigit) : isInert c := by
  have hbound : 48 ≤ c.toNat ∧ c.toNat ≤ 57 := Char.isDigit_iff_toNat.1 h
  have hne : ∀ d : Char, d.toNat < 48 ∨ 57 < d.toNat → c ≠ d := by
    rintro d hd rfl
    omega
  simp [isInert, isQuote, isOpener, hne '\'' (by decide), hne '"' (by decide),
    hne '\\' (by decide), hne '\x7b' (by decide), hne '[' (by decide), hne '\x7d' (by decide),
    hne ']' (by decide)]

theorem intText_cases (n : ℤ) : ∃ c rest, intText n = c :: rest ∧ (c.isDigit ∨ c = '-') ∧
    ∀ d ∈ rest, d.isDigit := by
  have hdigits : ∀ m d, d ∈ Nat.toDigits 10 m → d.isDigit :=
    fun m d hd => Nat.isDigit_of_mem_toDigits (by decide) (by decide) hd
  cases n with
  | ofNat m =>
    obtain ⟨c, rest, heq⟩ := List.exists_cons_of_ne_nil (Nat.toDigits_ne_nil (n := m) (b := 10))
    refine ⟨c, rest, heq, .inl (hdigits m c (by simp [heq])), fun d hd => ?_⟩
    exact hdigits m d (by simp [heq, hd])
  | negSucc m => exact ⟨'-', _, rfl, .inr rfl, hdigits (m + 1)⟩

theorem balanced_intText (n : ℤ) : Balanced (intText n) := by
  obtain ⟨c, rest, heq, hc, hrest⟩ := intText_cases n
  rw [heq]
  refine .inert ?_ (.of_inert fun d hd => isInert_digit (hrest d hd))
  rcases hc with hc | rfl
  · exact isInert_digit hc
  · decide

theorem jsonFloat_finite {text : Str} (h : FiniteFloat text) : jsonFloat text = text := by
  obtain ⟨⟨c, rest, rfl, hc⟩, hchars⟩ := h
  have hne : ∀ word : Str, (∃ d ∈ word, ¬ (d.isDigit ∨ d = '-' ∨ d = '+' ∨ d = '.' ∨ d = 'e')) →
      c :: rest ≠ word := by
    rintro word ⟨d, hd, hnot⟩ rfl
    exact hnot (hchars d hd)
  rw [jsonFloat, if_neg (hne _ ⟨'n', by decide, by decide⟩),
    if_neg (hne _ ⟨'i', by decide, by decide⟩), if_neg (hne _ ⟨'i', by decide, by decide⟩)]

theorem balanced_float {text : Str} (h : FiniteFloat text) : Balanced text := by
  refine .of_inert fun c hc => ?_
  rcases h.2 c hc with hdigit | rfl | rfl | rfl | rfl
  · exact isInert_digit hdigit
  all_goals decide

section
variable {style : Style}

theorem mem_order {α : Type} {es : List (Str × α)} (e : Str × α) : e ∈ style.order es ↔ e ∈ es := by
  unfold Style.order
  split
  · exact List.mem_insertionSort _
  · exact Iff.rfl

mutual

theorem balanced_jsonText (hitem : Balanced style.item) (hkey : Balanced style.key) :
    ∀ v : Data, JsonLike v → Balanced (jsonText style v)
  | .dict es, h => by
    refine .enclose (by decide) (.joined hitem fun p hp => ?_)
    obtain ⟨e, he, rfl⟩ := List.mem_map.1 hp
    have hmem : e ∈ jsonEntries style es := (mem_order e).1 he
    exact ((balanced_jsonString _).append hkey).append
      (balanced_jsonEntries hitem hkey es h e hmem)
  | .list xs, h => .enclose (by decide) (.joined hitem (balanced_jsonItems hitem hkey xs h))
  | .tuple xs, h => .enclose (by decide) (.joined hitem (balanced_jsonItems hitem hkey xs h))
  | .none, _ => .of_inert (by decide : ∀ c ∈ "null".toList, isInert c)
  | .bool true, _ => .of_inert (by decide : ∀ c ∈ "true".toList, isInert c)
  | .bool false, _ => .of_inert (by decide : ∀ c ∈ "false".toList, isInert c)
  | .int n, _ => balanced_intText n
  | .float text, h => by
    rw [jsonText, jsonFloat_finite h]
    exact balanced_float h
  | .str s, _ => balanced_jsonString s

theorem balanced_jsonItems (hitem : Balanced style.item) (hkey : Balanced style.key) :
    ∀ xs : List Data, ItemsLike xs → ∀ p ∈ jsonItems style xs, Balanced p
  | [], _ => by simp [jsonItems]
  | x :: xs, h => by
    rw [jsonItems, List.forall_mem_cons]
    exact ⟨balanced_jsonText hitem hkey x h.1, balanced_jsonItems hitem hkey xs h.2⟩

theorem balanced_jsonEntries (hitem : Balanced style.item) (hkey : Balanced style.key) :
    ∀ es : List (Data × Data), EntriesLike es → ∀ e ∈ jsonEntries style es, Balanced e.2
  | [], _ => by simp [jsonEntries]
  | (.str k, v) :: es, h => by
    rw [jsonEntries, List.forall_mem_cons]
    exact ⟨balanced_jsonText hitem hkey v h.1, balanced_jsonEntries hitem hkey es h.2.2⟩

end

theorem balanced_entryText (hitem : Balanced style.item) (hkey : Balanced style.key)
    {es : List (Data × Data)} (h : EntriesLike es) {p : Str}
    (hp : p ∈ (style.order (jsonEntries style es)).map style.entryText) : Balanced p := by
  obtain ⟨e, he, rfl⟩ := List.mem_map.1 hp
  have hmem : e ∈ jsonEntries style es := (mem_order e).1 he
  exact ((balanced_jsonString _).append hkey).append
    (balanced_jsonEntries hitem hkey es h e hmem)

end

theorem isSpace_digit {c : Char} (h : c.isDigit) : isSpace c = false := by
  have hbound : 48 ≤ c.toNat ∧ c.toNat ≤ 57 := Char.isDigit_iff_toNat.1 h
  simp only [isSpace, Bool.or_eq_false_iff, Bool.and_eq_false_iff, decide_eq_false_iff_not,
    beq_eq_false_iff_ne]
  omega

theorem digit_mem {c : Char} (h : c.isDigit) : c ∈ "'\"\\[\x7b]-0123456789".toList := by
  have hbound : 48 ≤ c.toNat ∧ c.toNat ≤ 57 := Char.isDigit_iff_toNat.1 h
  have hall : ∀ n < 58, 48 ≤ n → Char.ofNat n ∈ "'\"\\[\x7b]-0123456789".toList := by decide
  rw [← Char.ofNat_toNat c]
  exact hall c.toNat (by omega) hbound.1

/-- A list whose first element starts with one of these characters is recognised. -/
theorem looksSerializedStart_of_mem {c : Char} (h : c ∈ "'\"\\[\x7b]-0123456789".toList) (rest : Str) :
    looksSerializedStart '[' (c :: rest) := by
  have hspace : isSpace c = false := by
    revert c
    decide
  have hstrip : lstripBy isSpace (c :: rest) = c :: rest := by
    rw [lstripBy, List.dropWhile_cons, hspace]
    rfl
  rw [looksSerializedStart]
  simp only [hstrip]
  rw [if_neg (by decide), Bool.or_eq_true]
  exact .inl (by simpa using h)

theorem looksSerializedStart_jsonText {style : Style} : ∀ {v : Data}, JsonLike v → ∀ rest,
    looksSerializedStart '[' (jsonText style v ++ rest)
  | .none, _, rest => rfl
  | .bool true, _, rest => rfl
  | .bool false, _, rest => rfl
  | .int n, _, rest => by
    obtain ⟨c, more, heq, hc, -⟩ := intText_cases n
    rw [jsonText, heq]
    rcases hc with hc | rfl
    · exact looksSerializedStart_of_mem (digit_mem hc) _
    · exact looksSerializedStart_of_mem (by decide) _
  | .float text, h, rest => by
    rw [jsonText, jsonFloat_finite h]
    obtain ⟨⟨c, more, rfl, hc⟩, -⟩ := h
    rcases hc with hc | rfl
    · exact looksSerializedStart_of_mem (digit_mem hc) _
    · exact looksSerializedStart_of_mem (by decide) _
  | .str s, _, rest => looksSerializedStart_of_mem (by decide) _
  | .list xs, _, rest => looksSerializedStart_of_mem (by decide) _
  | .tuple xs, _, rest => looksSerializedStart_of_mem (by decide) _
  | .dict es, _, rest => looksSerializedStart_of_mem (by decide) _

theorem looksSerializedStart_jsonItems {style : Style} : ∀ xs, ItemsLike xs → ∀ rest,
    looksSerializedStart '[' (joined style.item (jsonItems style xs) ++ ']' :: rest)
  | [], _, _ => rfl
  | [x], hxs, _ => by
    simp only [jsonItems, joined, List.intercalate_singleton]
    exact looksSerializedStart_jsonText hxs.1 _
  | x :: y :: xs, hxs, _ => by
    simp only [jsonItems, joined, List.intercalate_cons_cons, List.append_assoc]
    exact looksSerializedStart_jsonText hxs.1 _

/-- The text of a container. -/
theorem jsonText_container {style : Style} (hitem : Balanced style.item) (hkey : Balanced style.key)
    {v : Data} (hlike : JsonLike v) (hcontainer : isContainer v) :
    ∃ c close body, jsonText style v = c :: body ++ [close] ∧ closer c = some close ∧
      Balanced body ∧ ∀ rest, looksSerializedStart c (body ++ close :: rest) := by
  match v, hlike with
  | .list xs, hlike =>
    exact ⟨'[', ']', _, rfl, rfl, .joined hitem (balanced_jsonItems hitem hkey xs hlike),
      looksSerializedStart_jsonItems xs hlike⟩
  | .tuple xs, hlike =>
    exact ⟨'[', ']', _, rfl, rfl, .joined hitem (balanced_jsonItems hitem hkey xs hlike),
      looksSerializedStart_jsonItems xs hlike⟩
  | .dict es, hlike =>
    refine ⟨'\x7b', '\x7d', joined style.item ((style.order (jsonEntries style es)).map style.entryText),
      rfl, rfl, .joined hitem fun p hp => ?_, fun rest => ?_⟩
    · exact balanced_entryText hitem hkey hlike hp
    · cases style.order (jsonEntries style es) with
      | nil => rfl
      | cons e more =>
        cases more with
        | nil => simp only [List.map_cons, List.map_nil, joined, List.intercalate_singleton]; rfl
        | cons e' more =>
          simp only [List.map_cons, joined, List.intercalate_cons_cons, List.append_assoc]
          rfl

section
variable {lib : Library} {f : ℕ → Str → Except PythonError Str}

theorem redactValue_eq_shown {v v' : Data} {room : ℕ} {key : Str} (hlike : JsonLike v)
    (h : redactValue lib f room key v = .ok v') : v' = shown (returned f) room key v := by
  have hclean := (redactValue_returns v room key).1 ⟨v', h⟩
  rw [redactValue_shown v room key hlike hclean] at h
  exact (Except.ok.inj h).symm

/-- The text after redaction does not depend on what is beneath sensitive keys. -/
theorem dumps_noninterference {x y : Data} (room : ℕ) (hx : JsonLike x) (hy : JsonLike y)
    (h : EqualUpTo keyIsSensitive x y) :
    ((redactValue lib f room [] x).bind (dumps compactStyle)).toOption =
      ((redactValue lib f room [] y).bind (dumps compactStyle)).toOption := by
  have hsame : (redactValue lib f room [] x).toOption.map ordered =
      (redactValue lib f room [] y).toOption.map ordered := redactValue_noninterference room hx hy h
  cases hv : redactValue lib f room [] x with
  | error e =>
    cases hw : redactValue lib f room [] y with
    | error e' => rfl
    | ok w => rw [hv, hw] at hsame; cases hsame
  | ok v =>
    cases hw : redactValue lib f room [] y with
    | error e => rw [hv, hw] at hsame; cases hsame
    | ok w =>
      rw [hv, hw] at hsame
      have hordered : ordered v = ordered w := Option.some.inj hsame
      have hlike : JsonLike v := redactValue_eq_shown hx hv ▸ like_shown x room [] hx
      have hlike' : JsonLike w := redactValue_eq_shown hy hw ▸ like_shown y room [] hy
      change (dumps compactStyle v).toOption = (dumps compactStyle w).toOption
      rw [dumps_toOption hlike, dumps_toOption hlike', ← jsonText_ordered v, ← jsonText_ordered w,
        ← intsFit_ordered v, ← intsFit_ordered w, hordered]

theorem strip_enclosed {c close : Char} (hc : isSpace c = false) (hclose : isSpace close = false)
    (body : Str) : strip (c :: body ++ [close]) = c :: body ++ [close] := by
  rw [strip, stripBy, List.cons_append, List.dropWhile_cons, hc]
  simp only [Bool.false_eq_true, if_false]
  rw [← List.cons_append, List.rdropWhile_concat_neg _ _ _ (by simp [hclose])]

theorem strip_container {c close : Char} (hc : closer c = some close) (body : Str) :
    strip (c :: body ++ [close]) = c :: body ++ [close] := by
  rcases closer_cases hc with ⟨rfl, rfl⟩ | ⟨rfl, rfl⟩ <;>
    exact strip_enclosed (by decide) (by decide) body

/-- The parse loop ends at a container. -/
theorem parseLoop_container {v : Data} (hv : isContainer v) (n : ℕ) : parseLoop lib n v = .ok (some v) := by
  cases n with
  | zero => rfl
  | succ n =>
    cases v with
    | str s => cases hv
    | _ => rfl

/-- A container that is read back is parsed. -/
theorem parseSerialized_container {c close : Char} {body : Str} {v : Data}
    (hc : closer c = some close) (hv : isContainer v)
    (hloads : lib.loads (c :: body ++ [close]) = .ok v) :
    parseSerialized lib (c :: body ++ [close]) = .ok (some v) := by
  rw [parseSerialized, parseLoop_str, strip_container hc, hloads]
  simp only [parseLoop_container hv]
  exact congrArg Except.ok (by simp [hv])

/-- Redaction of a text with one container in it. -/
theorem redactRuntimeValue_container {front body back : Str} {c close : Char} {v : Data}
    (hfront : ∀ a ∈ front, isOpener a = false) (hback : ∀ a ∈ back, isOpener a = false)
    (hquote : ∀ q, front.getLast? = some q → isQuote q = false) (hc : closer c = some close)
    (hbody : Balanced body) (hlooks : looksSerializedStart c (body ++ close :: back))
    (hv : isContainer v) (hloads : lib.loads (c :: body ++ [close]) = .ok v) :
    redactRuntimeValue lib (front ++ (c :: body ++ [close]) ++ back) =
      ((redactValue lib (redactAt lib) lib.room [] v).bind (dumps compactStyle)).bind
        fun text => .ok (redactText lib (front ++ text ++ back)) := by
  have hround : nextRound none (front ++ (c :: body ++ [close]) ++ back) =
      .found front (c :: body ++ [close]) back := by
    rw [List.append_assoc, List.append_assoc, List.singleton_append]
    exact nextRound_container hfront (by simpa using hquote) hc hbody hlooks
  have hlast : ∀ n before, redactFragments lib (redactAt lib) lib.room (n + 1) before back =
      .ok (some back) := by
    intro n before
    rw [redactFragments, nextRound_plain hback]
  obtain ⟨n, hn⟩ : ∃ n, (front ++ (c :: body ++ [close]) ++ back).length = n + 1 :=
    ⟨front.length + (body ++ [close]).length + back.length, by simp; omega⟩
  have hfragments : redactFragments lib (redactAt lib) lib.room
      ((front ++ (c :: body ++ [close]) ++ back).length + 1) none
      (front ++ (c :: body ++ [close]) ++ back) =
        (redactValue lib (redactAt lib) lib.room [] v).bind fun v' =>
          (dumps compactStyle v').bind fun text => .ok (some (front ++ text ++ back)) := by
    rw [redactFragments, hround, hn]
    simp only [parseSerialized_container hc hv hloads, hlast]
    rfl
  rw [redactRuntimeValue_eq, hfragments]
  cases redactValue lib (redactAt lib) lib.room [] v with
  | error e => rfl
  | ok v' =>
    change ((dumps compactStyle v').bind _).bind _ = (dumps compactStyle v').bind _
    cases dumps compactStyle v' with
    | error e => rfl
    | ok text => rfl

end

theorem isContainer_listed {v : Data} (h : isContainer v) : isContainer (listed v) := by
  cases v <;> first | rfl | cases h

theorem toOption_bind {α β : Type} (x : Except PythonError α) (g : α → Except PythonError β) :
    (x.bind g).toOption = x.toOption.bind fun a => (g a).toOption := by
  cases x <;> rfl

/-- Structures that are equal except for what is beneath sensitive keys are redacted alike,
in memory and in a text: to the same result, or both not at all. -/
theorem redaction_noninterference (lib : Library) {x y : Data} (hx : JsonLike x) (hy : JsonLike y)
    (h : EqualUpTo keyIsSensitive x y) :
    (redactOutput lib x).toOption.map ordered = (redactOutput lib y).toOption.map ordered ∧
      (isContainer x → isContainer y → ∀ textX textY, dumps plainStyle x = .ok textX →
        dumps plainStyle y = .ok textY →
        lib.loads textX = .ok (listed x) → lib.loads textY = .ok (listed y) →
          ∀ front back, (∀ c ∈ front, isOpener c = false) → (∀ c ∈ back, isOpener c = false) →
            (∀ q, front.getLast? = some q → isQuote q = false) →
            (redactRuntimeValue lib (front ++ textX ++ back)).toOption =
              (redactRuntimeValue lib (front ++ textY ++ back)).toOption) := by
  refine ⟨redactValue_noninterference lib.room hx hy h, fun hcx hcy => ?_⟩
  intro textX textY htextX htextY hloadsx hloadsy front back hfront hback hquote
  obtain rfl := dumps_eq_ok hx htextX
  obtain rfl := dumps_eq_ok hy htextY
  have hitem : Balanced plainStyle.item := .of_inert (by decide)
  have hkey : Balanced plainStyle.key := .of_inert (by decide)
  obtain ⟨c, close, body, htext, hclose, hbody, hlooks⟩ := jsonText_container hitem hkey hx hcx
  obtain ⟨c', close', body', htext', hclose', hbody', hlooks'⟩ := jsonText_container hitem hkey hy hcy
  have hlx : isContainer (listed x) := isContainer_listed hcx
  have hly : isContainer (listed y) := isContainer_listed hcy
  rw [htext] at hloadsx ⊢
  rw [htext'] at hloadsy ⊢
  have hsame : ((redactValue lib (redactAt lib) lib.room [] (listed x)).bind (dumps compactStyle)).toOption =
      ((redactValue lib (redactAt lib) lib.room [] (listed y)).bind (dumps compactStyle)).toOption :=
    dumps_noninterference lib.room (like_listed x hx) (like_listed y hy) (equalUpTo_listed h)
  rw [redactRuntimeValue_container hfront hback hquote hclose hbody (hlooks back) hlx hloadsx,
    redactRuntimeValue_container hfront hback hquote hclose' hbody' (hlooks' back) hly hloadsy,
    toOption_bind _ fun text => .ok (redactText lib (front ++ text ++ back)),
    toOption_bind _ fun text => .ok (redactText lib (front ++ text ++ back)), hsame]

def jsonLibrary (textX textY : Str) (x y : Data)
    (hx : ∀ leaf ∈ leaves x, leaf.length < textX.length)
    (hy : ∀ leaf ∈ leaves y, leaf.length < textY.length) : Library where
  loads s := if s = textX then .ok x else if s = textY then .ok y else .error .invalid
  literalEval _ := .error .invalid
  room := 1000
  wordChar _ := false
  printable _ := false
  loads_shorter := by
    intro s v hv
    split_ifs at hv with hs hs'
    · obtain rfl := Except.ok.inj hv
      exact hs ▸ hx
    · obtain rfl := Except.ok.inj hv
      exact hs' ▸ hy
  literalEval_shorter := nofun

def quotedPassword : Data :=
  .dict [(.str "password".toList, .str "a\"\x7d".toList), (.str "n".toList, .list [.int 1])]

/-- A password that is a mapping, and the entries the other way round. -/
def nestedPassword : Data :=
  .dict [(.str "n".toList, .list [.int 1]),
    (.str "password".toList, .dict [(.str "k".toList, .none)])]

def passwordLibrary : Library :=
  jsonLibrary (jsonText plainStyle quotedPassword) (jsonText plainStyle nestedPassword)
    quotedPassword nestedPassword (by decide +kernel) (by decide +kernel)

theorem redaction_noninterference_passwords :
    ∃ textX textY, dumps plainStyle quotedPassword = .ok textX ∧
      dumps plainStyle nestedPassword = .ok textY ∧
      (redactRuntimeValue passwordLibrary ("config=".toList ++ textX ++ " end".toList)).toOption =
        (redactRuntimeValue passwordLibrary ("config=".toList ++ textY ++ " end".toList)).toOption := by
  have hx : JsonLike quotedPassword := ⟨trivial, by decide, ⟨trivial, trivial⟩, by decide, trivial⟩
  have hy : JsonLike nestedPassword :=
    ⟨⟨trivial, trivial⟩, by decide, ⟨trivial, by decide, trivial⟩, by decide, trivial⟩
  have hsimilar : EqualUpTo keyIsSensitive quotedPassword nestedPassword := rfl
  have hne : jsonText plainStyle nestedPassword ≠ jsonText plainStyle quotedPassword := by
    decide +kernel
  have hloadsX : passwordLibrary.loads (jsonText plainStyle quotedPassword) = .ok quotedPassword := by
    simp [passwordLibrary, jsonLibrary]
  have hloadsY : passwordLibrary.loads (jsonText plainStyle nestedPassword) = .ok nestedPassword := by
    simp [passwordLibrary, jsonLibrary, hne]
  have hfitX : intsFit quotedPassword := by decide +kernel
  have hfitY : intsFit nestedPassword := by decide +kernel
  have hlast : ∀ q, "config=".toList.getLast? = some q → isQuote q = false := by
    intro q hq
    obtain rfl : '=' = q := Option.some.inj hq
    rfl
  have htextX := @dumps_like plainStyle quotedPassword hx hfitX
  have htextY := @dumps_like plainStyle nestedPassword hy hfitY
  have hsame := (redaction_noninterference passwordLibrary hx hy hsimilar).2 rfl rfl _ _ htextX htextY hloadsX hloadsY
    "config=".toList " end".toList (by decide) (by decide) hlast
  exact ⟨_, _, htextX, htextY, hsame⟩

end BitcoinRpcOperator.Redaction
