import Mathlib

/-!
# Text as a list of code points

The string operations of the two source languages that the development uses:
`str.split()`, `str.strip()`, `str.partition`, `str.splitlines()`, `str.replace`,
UTF-8 encoding and decimal digits. White space and decimal digits are the Unicode
ones, as for `str.isspace` and `\d` on text patterns.
-/

namespace BitcoinRpcOperator.Text

abbrev Str := List Char

abbrev Bytes := List UInt8

/-- Goes before the instances that enumerate a whole type. -/
instance (priority := high) decidableForallMem {α : Type} (l : List α) (p : α → Prop)
    [DecidablePred p] : Decidable (∀ a ∈ l, p a) := List.decidableBAll p l

instance lawfulBEqStr : LawfulBEq Str := inferInstance

/-- `str.isspace`, which is also what `\s` accepts. -/
def isSpace (c : Char) : Bool :=
  let n := c.toNat
  (9 ≤ n && n ≤ 13) || (28 ≤ n && n ≤ 32) || n == 0x85 || n == 0xa0 || n == 0x1680 ||
    (0x2000 ≤ n && n ≤ 0x200a) || n == 0x2028 || n == 0x2029 || n == 0x202f || n == 0x205f ||
    n == 0x3000

/-- Code points of the decimal zeros; the nine that follow each are its digits. -/
def decimalZeros : List ℕ :=
  [0x30, 0x660, 0x6f0, 0x7c0, 0x966, 0x9e6, 0xa66, 0xae6, 0xb66, 0xbe6, 0xc66, 0xce6, 0xd66,
    0xde6, 0xe50, 0xed0, 0xf20, 0x1040, 0x1090, 0x17e0, 0x1810, 0x1946, 0x19d0, 0x1a80, 0x1a90,
    0x1b50, 0x1bb0, 0x1c40, 0x1c50, 0xa620, 0xa8d0, 0xa900, 0xa9d0, 0xa9f0, 0xaa50, 0xabf0,
    0xff10, 0x104a0, 0x10d30, 0x11066, 0x110f0, 0x11136, 0x111d0, 0x112f0, 0x11450, 0x114d0,
    0x11650, 0x116c0, 0x11730, 0x118e0, 0x11950, 0x11c50, 0x11d50, 0x11da0, 0x11f50, 0x16a60,
    0x16ac0, 0x16b50, 0x1d7ce, 0x1d7d8, 0x1d7e2, 0x1d7ec, 0x1d7f6, 0x1e140, 0x1e2f0, 0x1e4f0,
    0x1e950, 0x1fbf0]

/-- The value of a decimal digit of any script. -/
def digit? (c : Char) : Option ℕ :=
  (decimalZeros.find? fun z => z ≤ c.toNat && c.toNat ≤ z + 9).map (c.toNat - ·)

/-- `int(text)` on a run of digits. -/
def decimal (s : Str) : ℕ := s.foldl (fun n c => 10 * n + (digit? c).getD 0) 0

/-- The non-empty pieces of a text cut at the characters `p` accepts. -/
def fieldsBy (p : Char → Bool) (s : Str) : List Str := (s.splitOnP p).filter (! ·.isEmpty)

/-- `str.split()`. -/
def words : Str → List Str := fieldsBy isSpace

/-- `" ".join`. -/
def unwords (ts : List Str) : Str := [' '].intercalate ts

variable {p : Char → Bool}

@[simp] theorem fieldsBy_nil : fieldsBy p [] = [] := by simp [fieldsBy]

theorem fieldsBy_append_cons {c : Char} (hc : p c) (a b : Str) :
    fieldsBy p (a ++ c :: b) = fieldsBy p a ++ fieldsBy p b := by
  simp [fieldsBy, List.splitOnP_append_cons a b hc]

theorem fieldsBy_of_forall {a : Str} (hne : a ≠ []) (h : ∀ c ∈ a, p c = false) :
    fieldsBy p a = [a] := by
  simp [fieldsBy, List.splitOnP_eq_singleton h, hne]

theorem fieldsBy_cons_sep {c : Char} (hc : p c) (a : Str) : fieldsBy p (c :: a) = fieldsBy p a := by
  simpa using fieldsBy_append_cons hc [] a

private theorem splitOnP_pieces (s : Str) : ∀ t ∈ s.splitOnP p, ∀ c ∈ t, c ∈ s ∧ p c = false := by
  induction s with
  | nil => simp
  | cons a s ih =>
    have later : ∀ t ∈ s.splitOnP p, ∀ c ∈ t, c ∈ a :: s ∧ p c = false := fun t ht c hc =>
      ⟨List.mem_cons_of_mem _ (ih t ht c hc).1, (ih t ht c hc).2⟩
    rw [List.splitOnP_cons_eq_if_modifyHead]
    by_cases ha : p a
    · rw [if_pos ha]
      intro t ht c hc
      rcases List.mem_cons.1 ht with rfl | ht
      · cases hc
      · exact later t ht c hc
    · obtain ⟨b, bs, hb⟩ := List.exists_cons_of_ne_nil (List.splitOnP_ne_nil p s)
      rw [if_neg ha, hb, List.modifyHead_cons]
      rw [hb] at later
      intro t ht c hc
      rcases List.mem_cons.1 ht with rfl | ht
      · rcases List.mem_cons.1 hc with rfl | hc
        · exact ⟨by simp, by simpa using ha⟩
        · exact later b (by simp) c hc
      · exact later t (List.mem_cons_of_mem _ ht) c hc

/-- Fields are non-empty and hold no separator. -/
theorem fieldsBy_spec {s t : Str} (ht : t ∈ fieldsBy p s) : t ≠ [] ∧ ∀ c ∈ t, p c = false := by
  simp only [fieldsBy, List.mem_filter, Bool.not_eq_true', List.isEmpty_eq_false_iff] at ht
  exact ⟨ht.2, fun c hc => (splitOnP_pieces s t ht.1 c hc).2⟩

theorem mem_of_mem_fieldsBy {s t : Str} (ht : t ∈ fieldsBy p s) {c : Char} (hc : c ∈ t) : c ∈ s :=
  (splitOnP_pieces s t (List.mem_filter.1 ht).1 c hc).1

/-- Text in front of a field without a separator belongs to it. -/
theorem fieldsBy_append {q : Str} (hne : q ≠ []) (hq : ∀ c ∈ q, p c = false) (u : Str) :
    ∃ w rest, fieldsBy p (q ++ u) = (q ++ w) :: rest := by
  have hfield : ∀ c ∈ q ++ u.takeWhile (! p ·), p c = false := by
    intro c hc
    rcases List.mem_append.1 hc with hc | hc
    · exact hq c hc
    · simpa using List.mem_takeWhile_imp hc
  cases hdrop : u.dropWhile (! p ·) with
  | nil =>
    have hall : u.takeWhile (! p ·) = u := by
      simpa [hdrop] using List.takeWhile_append_dropWhile (p := (! p ·)) (l := u)
    rw [hall] at hfield
    exact ⟨u, [], fieldsBy_of_forall (by simp [hne]) hfield⟩
  | cons c rest =>
    have hsep : p c = true := by
      have hhead : u.dropWhile (! p ·) ≠ [] := by simp [hdrop]
      simpa [hdrop] using List.head_dropWhile_not (! p ·) hhead
    have hu : u = u.takeWhile (! p ·) ++ c :: rest := by
      rw [← hdrop, List.takeWhile_append_dropWhile]
    refine ⟨u.takeWhile (! p ·), fieldsBy p rest, ?_⟩
    conv_lhs => rw [hu, ← List.append_assoc, fieldsBy_append_cons hsep]
    rw [fieldsBy_of_forall (by simp [hne]) hfield]
    rfl

theorem unwords_cons_cons (t u : Str) (ts : List Str) :
    unwords (t :: u :: ts) = t ++ ' ' :: unwords (u :: ts) := by
  simp [unwords, List.intercalate, List.intersperse]

@[simp] theorem unwords_nil : unwords [] = [] := rfl

@[simp] theorem unwords_singleton (t : Str) : unwords [t] = t := by
  simp [unwords, List.intercalate]

theorem unwords_append {ts us : List Str} (ht : ts ≠ []) (hu : us ≠ []) :
    unwords (ts ++ us) = unwords ts ++ ' ' :: unwords us := by
  induction ts with
  | nil => exact absurd rfl ht
  | cons t ts ih =>
    cases ts with
    | nil =>
      obtain ⟨u, us, rfl⟩ := List.exists_cons_of_ne_nil hu
      simp [unwords_cons_cons]
    | cons t' ts =>
      rw [List.cons_append, List.cons_append, unwords_cons_cons, ← List.cons_append,
        ih (by simp), unwords_cons_cons]
      simp

/-- Splitting undoes joining for fields that hold no separator. -/
theorem fieldsBy_unwords (hsp : p ' ') {ts : List Str}
    (h : ∀ t ∈ ts, t ≠ [] ∧ ∀ c ∈ t, p c = false) : fieldsBy p (unwords ts) = ts := by
  induction ts with
  | nil => simp
  | cons t ts ih =>
    have ht := h t (by simp)
    cases ts with
    | nil => simpa using fieldsBy_of_forall ht.1 ht.2
    | cons u ts =>
      rw [unwords_cons_cons, fieldsBy_append_cons hsp, fieldsBy_of_forall ht.1 ht.2,
        ih fun x hx => h x (by simp [hx])]
      rfl

theorem mem_unwords {ts : List Str} {c : Char} (hc : c ∈ unwords ts) :
    c = ' ' ∨ ∃ t ∈ ts, c ∈ t := by
  induction ts with
  | nil => simp at hc
  | cons t ts ih =>
    cases ts with
    | nil => exact .inr ⟨t, by simp, by simpa using hc⟩
    | cons u ts =>
      rw [unwords_cons_cons] at hc
      rcases List.mem_append.mp hc with hc | hc
      · exact .inr ⟨t, by simp, hc⟩
      · rcases List.mem_cons.mp hc with hc | hc
        · exact .inl hc
        · rcases ih hc with hc | ⟨x, hx, hc⟩
          · exact .inl hc
          · exact .inr ⟨x, by simp [hx], hc⟩

def lstripBy (p : Char → Bool) (s : Str) : Str := s.dropWhile p

def stripBy (p : Char → Bool) (s : Str) : Str := (s.dropWhile p).rdropWhile p

def strip : Str → Str := stripBy isSpace

theorem rdropWhile_append_cons {c : Char} (hc : p c = false) (a b : Str) :
    (a ++ c :: b).rdropWhile p = a ++ c :: b.rdropWhile p := by
  induction b using List.reverseRecOn with
  | nil => rw [List.rdropWhile_concat_neg _ _ _ (by simp [hc])]; simp
  | append_singleton b d ih =>
    rw [← List.cons_append, ← List.append_assoc]
    by_cases hd : p d
    · rw [List.rdropWhile_concat_pos _ _ _ hd, List.rdropWhile_concat_pos _ _ _ hd, ih]
    · rw [List.rdropWhile_concat_neg _ _ _ hd, List.rdropWhile_concat_neg _ _ _ hd]
      simp

theorem stripBy_idem (p : Char → Bool) (s : Str) : stripBy p (stripBy p s) = stripBy p s := by
  cases ht : s.dropWhile p with
  | nil =>
    rw [stripBy, stripBy, ht]
    rfl
  | cons c t =>
    have hc : p c = false := by
      have hne : s.dropWhile p ≠ [] := by simp [ht]
      simpa [ht] using List.head_dropWhile_not p hne
    have hstrip : stripBy p s = c :: t.rdropWhile p := by
      rw [stripBy, ht]
      exact rdropWhile_append_cons hc [] t
    rw [hstrip, stripBy, List.dropWhile_cons_of_neg (by simp [hc])]
    have hback := rdropWhile_append_cons hc [] (t.rdropWhile p)
    rw [List.nil_append, List.nil_append, List.rdropWhile_idempotent] at hback
    exact hback

/-- Spaces around a text are trimmed with those at its ends. -/
theorem stripBy_pad {a b : Str} (ha : ∀ c ∈ a, p c) (hb : ∀ c ∈ b, p c) (s : Str) :
    stripBy p (a ++ s ++ b) = stripBy p s := by
  rw [stripBy, List.append_assoc, List.dropWhile_append_of_pos ha, stripBy]
  by_cases hs : s.dropWhile p = []
  · rw [hs, List.dropWhile_append, hs, List.isEmpty_nil, if_pos rfl, List.dropWhile_eq_nil_iff.2 hb]
  · have hrest : (s ++ b).dropWhile p = s.dropWhile p ++ b := by
      rw [List.dropWhile_append, if_neg (by simpa using hs)]
    rw [hrest, List.rdropWhile, List.reverse_append,
      List.dropWhile_append_of_pos fun c hc => hb c (List.mem_reverse.1 hc), List.rdropWhile]

/-- The text before the first character `p` accepts, and what follows that
character when there is one: `str.split(c, 1)` and `str.partition`. -/
def cutAt (p : Char → Bool) (s : Str) : Str × Option Str :=
  match s.dropWhile (! p ·) with
  | [] => (s, none)
  | _ :: rest => (s.takeWhile (! p ·), some rest)

theorem cutAt_fst (p : Char → Bool) (s : Str) : (cutAt p s).1 = s.takeWhile (! p ·) := by
  unfold cutAt
  split
  · rename_i hdrop
    simpa [hdrop] using (List.takeWhile_append_dropWhile (p := (! p ·)) (l := s)).symm
  · rfl

section
variable {p : Char → Bool}

theorem takeWhile_stop {u w : Str} (hu : ∀ c ∈ u, p c) (hw : w.head?.any p = false) :
    (u ++ w).takeWhile p = u := by
  rw [List.takeWhile_append_of_pos hu]
  cases w with
  | nil => simp
  | cons c w =>
    have hc : p c = false := by simpa using hw
    simp [hc]

theorem cutAt_append {a : Str} (ha : ∀ c ∈ a, p c = false) {c : Char} (hc : p c) (b : Str) :
    cutAt p (a ++ c :: b) = (a, some b) := by
  have hpos : ∀ d ∈ a, (! p d) = true := fun d hd => by rw [ha d hd]; rfl
  have hdrop : (a ++ c :: b).dropWhile (! p ·) = c :: b := by
    rw [List.dropWhile_append_of_pos hpos, List.dropWhile_cons_of_neg (by simp [hc])]
  have htake : (a ++ c :: b).takeWhile (! p ·) = a := by
    rw [List.takeWhile_append_of_pos hpos, List.takeWhile_cons_of_neg (by simp [hc]),
      List.append_nil]
  rw [cutAt, hdrop, htake]

theorem cutAt_none {a : Str} (ha : ∀ c ∈ a, p c = false) : cutAt p a = (a, none) := by
  have hdrop : a.dropWhile (! p ·) = [] := by
    apply List.dropWhile_eq_nil_iff.2
    intro c hc
    rw [ha c hc]
    rfl
  rw [cutAt, hdrop]

theorem eq_of_cutAt {s a b : Str} (h : cutAt p s = (a, some b)) : ∃ c, p c ∧ s = a ++ c :: b := by
  unfold cutAt at h
  split at h
  · cases h
  · rename_i c rest hdrop
    obtain ⟨rfl, hrest⟩ := Prod.mk.inj h
    obtain rfl := Option.some.inj hrest
    refine ⟨c, ?_, ?_⟩
    · have hne : s.dropWhile (! p ·) ≠ [] := by simp [hdrop]
      simpa [hdrop] using List.head_dropWhile_not (! p ·) hne
    · rw [← hdrop, List.takeWhile_append_dropWhile]

theorem cutAt_snd {s v : Str} (h : (cutAt p s).2 = some v) : ∃ front, s = front ++ v := by
  obtain ⟨c, -, hs⟩ := eq_of_cutAt (Prod.ext rfl h)
  refine ⟨(cutAt p s).1 ++ [c], ?_⟩
  rw [List.append_assoc]
  exact hs

end

/-- `str.rpartition`: the text before the last `p` character, if any, and after it. -/
def rcutAt (p : Char → Bool) (s : Str) : Option Str × Str :=
  match cutAt p s.reverse with
  | (_, none) => (none, s)
  | (last, some front) => (some front.reverse, last.reverse)

/-- `str.replace(old, new)` for a non-empty `old`, on at most `fuel` positions. -/
def replaceFuel (old new : Str) : ℕ → Str → Str
  | 0, s => s
  | _, [] => []
  | n + 1, c :: s =>
    if old.isPrefixOf (c :: s) then new ++ replaceFuel old new n ((c :: s).drop old.length)
    else c :: replaceFuel old new n s

def replaceAll (old new s : Str) : Str := replaceFuel old new s.length s

def isLineBreak (c : Char) : Bool :=
  let n := c.toNat
  (10 ≤ n && n ≤ 13) || (28 ≤ n && n ≤ 30) || n == 0x85 || n == 0x2028 || n == 0x2029

/-- `str.splitlines()`: a carriage return before a line feed breaks once. -/
def splitLines (s : Str) : List Str :=
  go [] s
where
  go (line : Str) : Str → List Str
    | [] => if line.isEmpty then [] else [line.reverse]
    | '\r' :: '\n' :: s => line.reverse :: go [] s
    | c :: s => if isLineBreak c then line.reverse :: go [] s else go (c :: line) s

theorem prefix_append_cases {α : Type} {l a b : List α} (h : l <+: a ++ b) :
    l <+: a ∨ ∃ t, l = a ++ t ∧ t <+: b := by
  rcases List.prefix_or_prefix_of_prefix h (List.prefix_append a b) with hshort | ⟨t, rfl⟩
  · exact .inl hshort
  · exact .inr ⟨t, rfl, (List.prefix_append_right_inj a).1 h⟩

/-- `text.encode("utf-8")`. -/
def utf8 (s : Str) : Bytes := s.flatMap String.utf8EncodeChar

theorem utf8_injective {s t : Str} (h : utf8 s = utf8 t) : s = t := by
  have hbytes : s.utf8Encode = t.utf8Encode := by
    rw [List.utf8Encode, List.utf8Encode]
    exact congrArg List.toByteArray h
  have hstring : String.ofList s = String.ofList t := by
    rw [← String.toByteArray_inj]
    simpa using hbytes
  exact String.ofList_injective hstring

/-- A text in the bytes that another begins with is the beginning of the other. -/
theorem isPrefix_of_utf8 {s t : Str} (h : utf8 s <+: utf8 t) : s <+: t := by
  induction s generalizing t with
  | nil => exact List.nil_prefix
  | cons c s ih =>
    obtain ⟨rest, hrest⟩ := h
    have hc : utf8 (c :: s) = String.utf8EncodeChar c ++ utf8 s := List.flatMap_cons
    cases t with
    | nil =>
      rw [hc, List.append_assoc] at hrest
      exact absurd (List.append_eq_nil_iff.1 hrest).1 String.utf8EncodeChar_ne_nil
    | cons d t =>
      have hd : utf8 (d :: t) = String.utf8EncodeChar d ++ utf8 t := List.flatMap_cons
      rw [hc, hd, List.append_assoc] at hrest
      have hdecode : ∀ (c : Char) (b : Bytes),
          ByteArray.utf8DecodeChar? (String.utf8EncodeChar c ++ b).toByteArray 0 = some c := by
        intro c b
        rw [List.toByteArray_append]
        exact ByteArray.utf8DecodeChar?_utf8EncodeChar_append
      have hsame : c = d := by
        have hfirst := hdecode c (utf8 s ++ rest)
        rw [hrest, hdecode d] at hfirst
        exact (Option.some.inj hfirst).symm
      subst hsame
      exact (List.cons_prefix_cons.2 ⟨rfl, ih ⟨rest, List.append_cancel_left hrest⟩⟩)

theorem splitOn_cons (sep c : Char) (s : Str) : (c :: s).splitOn sep =
    if c = sep then [] :: s.splitOn sep else (s.splitOn sep).modifyHead (c :: ·) := by
  rw [List.splitOn, List.splitOnP_cons_eq_if_modifyHead]
  by_cases hc : c = sep
  · simp [hc, List.splitOn]
  · simp [hc, List.splitOn]

/-- The entries of a text with something in front of it, and of one with something behind. -/
theorem splitOn_append_left {sep : Char} {a : Str} (ha : sep ∉ a) (s : Str) :
    (a ++ s).splitOn sep = (s.splitOn sep).modifyHead (a ++ ·) := by
  induction a with
  | nil =>
    rw [List.nil_append]
    generalize s.splitOn sep = entries
    cases entries <;> rfl
  | cons c a ih =>
    have hc : c ≠ sep := fun hc => ha (by simp [hc])
    rw [List.cons_append, splitOn_cons, if_neg hc, ih fun hmem => ha (List.mem_cons_of_mem _ hmem),
      List.modifyHead_modifyHead]
    rfl

theorem splitOn_append_right {sep : Char} {b : Str} (hb : sep ∉ b) (s : Str) :
    List.Forall₂ (fun x y => x = y ∨ x = y ++ b) ((s ++ b).splitOn sep) (s.splitOn sep) := by
  induction s with
  | nil =>
    have hsingle : b.splitOn sep = [b] :=
      List.splitOnP_eq_singleton fun c hc => by
        rw [beq_eq_false_iff_ne]
        rintro rfl
        exact hb hc
    rw [List.nil_append, hsingle]
    exact .cons (.inr rfl) .nil
  | cons c s ih =>
    rw [List.cons_append, splitOn_cons, splitOn_cons]
    split
    · exact .cons (.inl rfl) ih
    · generalize (s ++ b).splitOn sep = padded at ih
      generalize s.splitOn sep = entries at ih
      cases ih with
      | nil => exact .nil
      | cons hx hxs =>
        refine .cons ?_ hxs
        rcases hx with rfl | rfl
        · exact .inl rfl
        · exact .inr rfl

def base64Digit (n : ℕ) : Char :=
  "ABCDEFGHIJKLMNOPQRSTUVWXYZabcdefghijklmnopqrstuvwxyz0123456789+/".toList.getD (n % 64) '='

def base64 : Bytes → Str
  | a :: b :: c :: rest =>
    let n := (a.toNat * 256 + b.toNat) * 256 + c.toNat
    base64Digit (n / 262144) :: base64Digit (n / 4096) :: base64Digit (n / 64) ::
      base64Digit n :: base64 rest
  | [a, b] =>
    let n := a.toNat * 256 + b.toNat
    [base64Digit (n / 1024), base64Digit (n / 16), base64Digit (n * 4), '=']
  | [a] => [base64Digit (a.toNat / 4), base64Digit (a.toNat * 16), '=', '=']
  | [] => []

example : base64 (utf8 "user:pass".toList) = "dXNlcjpwYXNz".toList := by decide +kernel

end BitcoinRpcOperator.Text
