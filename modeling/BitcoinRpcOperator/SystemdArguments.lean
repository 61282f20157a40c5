import BitcoinRpcOperator.Text

/-!
# From an environment file to an argument vector

How systemd reads an `EnvironmentFile=` and splits the value of a bare `$NAME` word of a
command line: two machines over characters. On a value that needs no quoting the first
undoes a pair of double quotes, and the second cuts at white space.
-/

namespace BitcoinRpcOperator.SystemdArguments
open Text

def isBlank (c : Char) : Bool := c == ' ' || c == '\t' || c == '\n' || c == '\r'

def isNewline (c : Char) : Bool := c == '\n' || c == '\r'

def isQuote (c : Char) : Bool := c == '"' || c == '\''

/-- Where the reader stands, with the key and the value read so far. Blanks at the end of
a bare value are held back until something follows them. -/
inductive FileState where
  | preKey
  | key (key : Str)
  | preValue (key value : Str)
  | value (key value blanks : Str)
  | valueEscape (key value : Str)
  | singleQuote (key value : Str)
  | doubleQuote (key value : Str)
  | doubleQuoteEscape (key value : Str)
  | comment
  | commentEscape

/-- A key ends before the blanks in front of its `=`. -/
def assignment (key value : Str) : Str × Str := (key.rdropWhile isBlank, value)

/-- What may be escaped between double quotes; before anything else a backslash stays. -/
def isShellSpecial (c : Char) : Bool := c == '"' || c == '\\' || c == '`' || c == '$'

/-- Read one character: the assignments it completes, and where the reader stands then. -/
def fileStep : FileState → Char → List (Str × Str) × FileState
  | .preKey, c =>
    if c == '#' || c == ';' then ([], .comment)
    else if isBlank c then ([], .preKey)
    else ([], .key [c])
  | .key k, c =>
    if isNewline c then ([], .preKey)
    else if c == '=' then ([], .preValue k [])
    else ([], .key (k ++ [c]))
  | .preValue k v, c =>
    if isNewline c then ([assignment k v], .preKey)
    else if c == '\'' then ([], .singleQuote k v)
    else if c == '"' then ([], .doubleQuote k v)
    else if c == '\\' then ([], .valueEscape k v)
    else if isBlank c then ([], .preValue k v)
    else ([], .value k (v ++ [c]) [])
  | .value k v blanks, c =>
    if isNewline c then ([assignment k v], .preKey)
    else if c == '\\' then ([], .valueEscape k (v ++ blanks))
    else if isBlank c then ([], .value k v (blanks ++ [c]))
    else ([], .value k (v ++ blanks ++ [c]) [])
  | .valueEscape k v, c => ([], .value k (if isNewline c then v else v ++ [c]) [])
  | .singleQuote k v, c =>
    if c == '\'' then ([], .preValue k v) else ([], .singleQuote k (v ++ [c]))
  | .doubleQuote k v, c =>
    if c == '"' then ([], .preValue k v)
    else if c == '\\' then ([], .doubleQuoteEscape k v)
    else ([], .doubleQuote k (v ++ [c]))
  | .doubleQuoteEscape k v, c =>
    ([], .doubleQuote k (if isShellSpecial c then v ++ [c] else if c == '\n' then v
      else v ++ ['\\', c]))
  | .comment, c =>
    if c == '\\' then ([], .commentEscape) else if isNewline c then ([], .preKey) else ([], .comment)
  | .commentEscape, _ => ([], .comment)

def fileEnd : FileState → List (Str × Str)
  | .preKey | .key _ | .comment | .commentEscape => []
  | .preValue k v | .value k v _ | .valueEscape k v | .singleQuote k v | .doubleQuote k v
  | .doubleQuoteEscape k v => [assignment k v]

def readFile : FileState → Str → List (Str × Str)
  | state, [] => fileEnd state
  | state, c :: s => (fileStep state c).1 ++ readFile (fileStep state c).2 s

/-- The value an environment file gives a variable: that of its last assignment. -/
def variableValue (name : Str) (text : Str) : Option Str :=
  ((readFile .preKey text).findRev? fun a => a.1 == name).map (·.2)

/-- Where the splitter stands, with the word read so far and the open quote. -/
inductive WordState where
  | between
  | word (w : Str)
  | quoted (quote : Char) (w : Str)
  | escape (quote : Option Char) (w : Str)

def wordStep : WordState → Char → List Str × WordState
  | .between, c =>
    if isBlank c then ([], .between)
    else if isQuote c then ([], .quoted c [])
    else if c == '\\' then ([], .escape none [])
    else ([], .word [c])
  | .word w, c =>
    if isBlank c then ([w], .between)
    else if isQuote c then ([], .quoted c w)
    else if c == '\\' then ([], .escape none w)
    else ([], .word (w ++ [c]))
  | .quoted quote w, c =>
    if c == quote then ([], .word w)
    else if c == '\\' then ([], .escape (some quote) w)
    else ([], .quoted quote (w ++ [c]))
  | .escape none w, c => ([], .word (w ++ [c]))
  | .escape (some quote) w, c => ([], .quoted quote (w ++ [c]))

def wordEnd : WordState → List Str
  | .between => []
  | .word w | .quoted _ w | .escape _ w => [w]

def readWords : WordState → Str → List Str
  | state, [] => wordEnd state
  | state, c :: s => (wordStep state c).1 ++ readWords (wordStep state c).2 s

/-- The words a bare `$NAME` expands to. -/
def splitWords : Str → List Str := readWords .between

/-- No quote and no backslash. -/
def Plain (s : Str) : Prop := ∀ c ∈ s, c ≠ '"' ∧ c ≠ '\'' ∧ c ≠ '\\'

theorem Plain.append {s t : Str} (hs : Plain s) (ht : Plain t) : Plain (s ++ t) := by
  intro c hc
  rcases List.mem_append.1 hc with hc | hc
  · exact hs c hc
  · exact ht c hc

theorem readFile_key {k k' : Str} (h : ∀ c ∈ k', isNewline c = false ∧ c ≠ '=') (rest : Str) :
    readFile (.key k) (k' ++ rest) = readFile (.key (k ++ k')) rest := by
  induction k' generalizing k with
  | nil => simp
  | cons c k' ih =>
    obtain ⟨hnewline, hequals⟩ := h c (by simp)
    have hstep : fileStep (.key k) c = ([], .key (k ++ [c])) := by
      simp [fileStep, hnewline, hequals]
    rw [List.cons_append, readFile, hstep, List.nil_append,
      ih fun c hc => h c (List.mem_cons_of_mem _ hc), List.append_assoc]
    rfl

theorem readFile_doubleQuote {k v t : Str} (h : Plain t) (rest : Str) :
    readFile (.doubleQuote k v) (t ++ rest) = readFile (.doubleQuote k (v ++ t)) rest := by
  induction t generalizing v with
  | nil => simp
  | cons c t ih =>
    obtain ⟨hquote, -, hbackslash⟩ := h c (by simp)
    have hstep : fileStep (.doubleQuote k v) c = ([], .doubleQuote k (v ++ [c])) := by
      simp [fileStep, hquote, hbackslash]
    rw [List.cons_append, readFile, hstep, List.nil_append,
      ih fun c hc => h c (List.mem_cons_of_mem _ hc), List.append_assoc]
    rfl

/-- What the name of a variable may hold. -/
def IsName (s : Str) : Prop := ∀ c ∈ s, isBlank c = false ∧ c ≠ '=' ∧ c ≠ '#' ∧ c ≠ ';'

theorem readFile_name {name : Str} (hne : name ≠ []) (hname : IsName name) (rest : Str) :
    readFile .preKey (name ++ '=' :: rest) = readFile (.preValue name []) rest := by
  obtain ⟨c, k, rfl⟩ := List.exists_cons_of_ne_nil hne
  have hkey : ∀ c ∈ k, isNewline c = false ∧ c ≠ '=' := by
    intro c hc
    obtain ⟨hblank, hequals, -⟩ := hname c (List.mem_cons_of_mem _ hc)
    refine ⟨?_, hequals⟩
    simp only [isBlank, isNewline, Bool.or_eq_false_iff] at hblank ⊢
    exact ⟨hblank.1.2, hblank.2⟩
  obtain ⟨hblank, -, hhash, hsemicolon⟩ := hname c (by simp)
  have hstart : fileStep .preKey c = ([], .key [c]) := by
    simp [fileStep, hblank, hhash, hsemicolon]
  rw [List.cons_append, readFile, hstart, List.nil_append, readFile_key hkey]
  rfl

theorem assignment_name {name : Str} (hname : IsName name) (v : Str) :
    assignment name v = (name, v) := by
  have htrimmed : name.rdropWhile isBlank = name := by
    rw [List.rdropWhile_eq_self_iff]
    intro hl
    simp [(hname _ (List.getLast_mem hl)).1]
  rw [assignment, htrimmed]

/-- A double-quoted plain value is read as it was written. -/
theorem variableValue_quoted {name t : Str} (hne : name ≠ []) (hname : IsName name) (ht : Plain t) :
    variableValue name (name ++ "=\"".toList ++ t ++ ['"']) = some t := by
  have hread : readFile .preKey (name ++ "=\"".toList ++ t ++ ['"']) = [(name, t)] := by
    calc readFile .preKey (name ++ "=\"".toList ++ t ++ ['"'])
        = readFile .preKey (name ++ '=' :: '"' :: (t ++ ['"'])) := by simp
      _ = readFile (.doubleQuote name []) (t ++ ['"']) := by
          rw [readFile_name hne hname]
          rfl
      _ = readFile (.doubleQuote name t) ['"'] := by rw [readFile_doubleQuote ht]; rfl
      _ = [assignment name t] := rfl
      _ = [(name, t)] := by rw [assignment_name hname]
  rw [variableValue, hread]
  simp

/-- What is written on a line as it stands: no line break, quote or backslash. -/
def Bare (s : Str) : Prop := ∀ c ∈ s, isNewline c = false ∧ c ≠ '"' ∧ c ≠ '\'' ∧ c ≠ '\\'

/-- A bare value ends with its line, and the blanks at its end are dropped. -/
theorem readFile_value {k : Str} {s : Str} (hs : Bare s) (v blanks rest : Str)
    (hblanks : ∀ c ∈ blanks, isBlank c = true) :
    readFile (.value k v blanks) (s ++ '\n' :: rest) =
      assignment k (v ++ (blanks ++ s).rdropWhile isBlank) :: readFile .preKey rest := by
  induction s generalizing v blanks with
  | nil =>
    have hall : (blanks ++ []).rdropWhile isBlank = [] := by
      rw [List.append_nil, List.rdropWhile_eq_nil_iff]
      exact hblanks
    rw [hall, List.append_nil]
    rfl
  | cons c s ih =>
    obtain ⟨hnewline, hdouble, hsingle, hbackslash⟩ := hs c (by simp)
    have hrest : Bare s := fun c hc => hs c (List.mem_cons_of_mem _ hc)
    cases hc : isBlank c with
    | true =>
      have hstep : fileStep (.value k v blanks) c = ([], .value k v (blanks ++ [c])) := by
        simp [fileStep, hnewline, hbackslash, hc]
      rw [List.cons_append, readFile, hstep, List.nil_append, ih hrest]
      · simp
      · intro d hd
        rcases List.mem_append.1 hd with hd | hd
        · exact hblanks d hd
        · rw [List.mem_singleton.1 hd, hc]
    | false =>
      have hstep : fileStep (.value k v blanks) c = ([], .value k (v ++ blanks ++ [c]) []) := by
        simp [fileStep, hnewline, hbackslash, hc]
      rw [List.cons_append, readFile, hstep, List.nil_append, ih hrest _ _ (by simp),
        rdropWhile_append_cons hc]
      simp

theorem readFile_preValue {k : Str} {s : Str} (hs : Bare s) (rest : Str) :
    readFile (.preValue k []) (s ++ '\n' :: rest) =
      assignment k (stripBy isBlank s) :: readFile .preKey rest := by
  induction s with
  | nil => rfl
  | cons c s ih =>
    obtain ⟨hnewline, hdouble, hsingle, hbackslash⟩ := hs c (by simp)
    have hrest : Bare s := fun c hc => hs c (List.mem_cons_of_mem _ hc)
    cases hc : isBlank c with
    | true =>
      have hstep : fileStep (.preValue k []) c = ([], .preValue k []) := by
        simp [fileStep, hnewline, hdouble, hsingle, hbackslash, hc]
      have hstrip : stripBy isBlank (c :: s) = stripBy isBlank s := by
        rw [stripBy, List.dropWhile_cons_of_pos hc, stripBy]
      rw [List.cons_append, readFile, hstep, List.nil_append, ih hrest, hstrip]
    | false =>
      have hstep : fileStep (.preValue k []) c = ([], .value k [c] []) := by
        simp [fileStep, hnewline, hdouble, hsingle, hbackslash, hc]
      have hstrip : stripBy isBlank (c :: s) = c :: s.rdropWhile isBlank := by
        rw [stripBy, List.dropWhile_cons_of_neg (by simp [hc])]
        exact rdropWhile_append_cons hc [] s
      rw [List.cons_append, readFile, hstep, List.nil_append, readFile_value hrest _ _ _ (by simp),
        hstrip]
      simp

/-- A file of lines `name=value`. -/
def lines (entries : List (Str × Str)) : Str :=
  entries.flatMap fun e => e.1 ++ '=' :: e.2 ++ ['\n']

/-- Lines that are read as they stand. -/
def BareLines (entries : List (Str × Str)) : Prop :=
  ∀ e ∈ entries, e.1 ≠ [] ∧ IsName e.1 ∧ Bare e.2

theorem readFile_lines {entries : List (Str × Str)} (h : BareLines entries) :
    readFile .preKey (lines entries) = entries.map fun e => (e.1, stripBy isBlank e.2) := by
  induction entries with
  | nil => rfl
  | cons e entries ih =>
    obtain ⟨hne, hname, hvalue⟩ := h e (by simp)
    have hline : lines (e :: entries) = e.1 ++ '=' :: (e.2 ++ '\n' :: lines entries) := by
      simp [lines]
    rw [hline, readFile_name hne hname, readFile_preValue hvalue, assignment_name hname,
      ih fun e he => h e (List.mem_cons_of_mem _ he)]
    rfl

/-- What a file of bare lines gives a variable. -/
def lastValue (entries : List (Str × Str)) (name : Str) : Option Str :=
  (entries.findRev? fun e => e.1 == name).map fun e => stripBy isBlank e.2

theorem lastValue_map (base : List (Str × Str)) (f : Str × Str → Str) (name : Str) :
    lastValue (base.map fun e => (e.1, f e)) name =
      (base.findRev? fun e => e.1 == name).map fun e => stripBy isBlank (f e) := by
  rw [lastValue, List.findRev?_eq_find?_reverse, List.findRev?_eq_find?_reverse,
    ← List.map_reverse, List.find?_map, Option.map_map]
  rfl

theorem variableValue_lines {entries : List (Str × Str)} (h : BareLines entries) (name : Str) :
    variableValue name (lines entries) = lastValue entries name := by
  rw [variableValue, readFile_lines h, lastValue, List.findRev?_eq_find?_reverse,
    List.findRev?_eq_find?_reverse, ← List.map_reverse, List.find?_map, Option.map_map]
  rfl

/-- The end of a file ends a bare value as a line break does. -/
theorem readFile_bare_end {k s : Str} (hs : Bare s) :
    (∀ v, readFile (.preValue k v) s = readFile (.preValue k v) (s ++ ['\n'])) ∧
      ∀ v blanks, readFile (.value k v blanks) s = readFile (.value k v blanks) (s ++ ['\n']) := by
  induction s with
  | nil => exact ⟨fun v => rfl, fun v blanks => rfl⟩
  | cons c s ih =>
    obtain ⟨ihPre, ihValue⟩ := ih fun c hc => hs c (List.mem_cons_of_mem _ hc)
    obtain ⟨hnewline, hdouble, hsingle, hbackslash⟩ := hs c (by simp)
    refine ⟨fun v => ?_, fun v blanks => ?_⟩
    · cases hc : isBlank c <;>
        simp [readFile, fileStep, hnewline, hdouble, hsingle, hbackslash, hc, ihPre, ihValue]
    · cases hc : isBlank c <;>
        simp [readFile, fileStep, hnewline, hbackslash, hc, ihValue]

/-- What is read of a name that is cut off. -/
theorem readFile_cutName {name name' : Str} (hname : IsName name) (h : name' <+: name) :
    readFile .preKey name' = [] := by
  cases name' with
  | nil => rfl
  | cons c k =>
    have hsub : ∀ d ∈ c :: k, isBlank d = false ∧ d ≠ '=' ∧ d ≠ '#' ∧ d ≠ ';' :=
      fun d hd => hname d (h.subset hd)
    have hkey : ∀ d ∈ k, isNewline d = false ∧ d ≠ '=' := by
      intro d hd
      obtain ⟨hblank, hequals, -⟩ := hsub d (List.mem_cons_of_mem _ hd)
      simp only [isBlank, isNewline, Bool.or_eq_false_iff] at hblank ⊢
      exact ⟨⟨hblank.1.2, hblank.2⟩, hequals⟩
    obtain ⟨hblank, -, hhash, hsemicolon⟩ := hsub c (by simp)
    have hstart : fileStep .preKey c = ([], .key [c]) := by simp [fileStep, hblank, hhash, hsemicolon]
    have hread := @readFile_key [c] k hkey []
    rw [List.append_nil] at hread
    rw [readFile, hstart, List.nil_append, hread]
    rfl

/-- The beginning of a file of lines: of one line the end of the value may be missing. -/
theorem mem_readFile_cut {entries : List (Str × Str)} (h : BareLines entries) {text : Str}
    (hfront : text <+: lines entries) : ∀ a ∈ readFile .preKey text,
      ∃ e ∈ entries, a.1 = e.1 ∧ ∃ v, v <+: e.2 ∧ a.2 = stripBy isBlank v := by
  induction entries generalizing text with
  | nil =>
    obtain rfl : text = [] := List.prefix_nil.1 hfront
    exact fun a ha => absurd ha List.not_mem_nil
  | cons e entries ih =>
    obtain ⟨hne, hname, hvalue⟩ := h e (by simp)
    have hrest : BareLines entries := fun e he => h e (List.mem_cons_of_mem _ he)
    have hline : lines (e :: entries) = e.1 ++ '=' :: (e.2 ++ '\n' :: lines entries) := by simp [lines]
    rw [hline] at hfront
    rcases prefix_append_cases hfront with hcut | ⟨behindName, rfl, hbehindName⟩
    · rw [readFile_cutName hname hcut]
      exact fun a ha => absurd ha List.not_mem_nil
    rcases List.prefix_cons_iff.1 hbehindName with rfl | ⟨text, rfl, htext⟩
    · rw [List.append_nil, readFile_cutName hname (List.prefix_refl _)]
      exact fun a ha => absurd ha List.not_mem_nil
    rw [readFile_name hne hname]
    rcases prefix_append_cases htext with hcut | ⟨behindValue, rfl, hbehindValue⟩
    · have hbare : Bare text := fun c hc => hvalue c (hcut.subset hc)
      rw [(readFile_bare_end hbare).1, readFile_preValue hbare, assignment_name hname]
      intro a ha
      obtain rfl := List.mem_singleton.1 ha
      exact ⟨e, List.mem_cons_self, rfl, text, hcut, rfl⟩
    rcases List.prefix_cons_iff.1 hbehindValue with rfl | ⟨behind, rfl, hbehind⟩
    · rw [List.append_nil, (readFile_bare_end hvalue).1, readFile_preValue hvalue, assignment_name hname]
      intro a ha
      obtain rfl := List.mem_singleton.1 ha
      exact ⟨e, List.mem_cons_self, rfl, e.2, List.prefix_refl _, rfl⟩
    · rw [readFile_preValue hvalue, assignment_name hname]
      intro a ha
      rcases List.mem_cons.1 ha with rfl | ha
      · exact ⟨e, List.mem_cons_self, rfl, e.2, List.prefix_refl _, rfl⟩
      · obtain ⟨e', he', hread⟩ := ih hrest hbehind a ha
        exact ⟨e', List.mem_cons_of_mem _ he', hread⟩

theorem wordStep_blank {c : Char} (h : isBlank c = true) : wordStep .between c = ([], .between) := by
  simp [wordStep, h]

/-- Plain text is split at white space. -/
theorem readWords_plain {s : Str} (hs : Plain s) :
    readWords .between s = fieldsBy isBlank s ∧
      ∀ w, w ≠ [] → (∀ c ∈ w, isBlank c = false) →
        readWords (.word w) s = fieldsBy isBlank (w ++ s) := by
  induction s with
  | nil =>
    refine ⟨by simp [readWords, wordEnd], fun w hne hw => ?_⟩
    rw [List.append_nil, fieldsBy_of_forall hne hw]
    rfl
  | cons c s ih =>
    obtain ⟨ihBetween, ihWord⟩ := ih fun c hc => hs c (List.mem_cons_of_mem _ hc)
    obtain ⟨hdouble, hsingle, hbackslash⟩ := hs c (by simp)
    have hquote : isQuote c = false := by simp [isQuote, hdouble, hsingle]
    cases hc : isBlank c with
    | true =>
      refine ⟨?_, fun w hne hw => ?_⟩
      · rw [readWords, wordStep_blank hc, fieldsBy_cons_sep hc]
        exact ihBetween
      · have hstep : wordStep (.word w) c = ([w], .between) := by simp [wordStep, hc]
        rw [readWords, hstep, fieldsBy_append_cons hc, fieldsBy_of_forall hne hw, ihBetween]
    | false =>
      refine ⟨?_, fun w hne hw => ?_⟩
      · have hstep : wordStep .between c = ([], .word [c]) := by
          simp [wordStep, hc, hquote, hbackslash]
        rw [readWords, hstep]
        exact ihWord [c] (by simp) (by simpa using hc)
      · have hstep : wordStep (.word w) c = ([], .word (w ++ [c])) := by
          simp [wordStep, hc, hquote, hbackslash]
        have hword : ∀ d ∈ w ++ [c], isBlank d = false := by
          intro d hd
          rcases List.mem_append.1 hd with hd | hd
          · exact hw d hd
          · rw [List.mem_singleton.1 hd, hc]
        rw [readWords, hstep, List.nil_append, ihWord (w ++ [c]) (by simp) hword]
        simp

theorem splitWords_plain {s : Str} (hs : Plain s) : splitWords s = fieldsBy isBlank s :=
  (readWords_plain hs).1

/-- A quote or a backslash. -/
def isSpecial (c : Char) : Bool := c == '"' || c == '\'' || c == '\\'

def specials (s : Str) : ℕ := s.countP isSpecial

@[simp] theorem specials_nil : specials [] = 0 := rfl

@[simp] theorem specials_append (s t : Str) : specials (s ++ t) = specials s + specials t :=
  List.countP_append

theorem specials_cons (c : Char) (s : Str) : specials (c :: s) = specials [c] + specials s :=
  specials_append [c] s

theorem specials_eq_zero {s : Str} : specials s = 0 ↔ Plain s := by
  rw [specials, List.countP_eq_zero, Plain]
  refine forall₂_congr fun c _ => ?_
  simp [isSpecial, and_assoc]

/-- The special characters of the value being read, with a pending backslash. -/
def FileState.held : FileState → ℕ
  | .preKey | .key _ | .comment | .commentEscape => 0
  | .preValue _ v | .singleQuote _ v | .doubleQuote _ v => specials v
  | .value _ v blanks => specials v + specials blanks
  | .valueEscape _ v | .doubleQuoteEscape _ v => specials v + 1

theorem fileStep_held (state : FileState) (c : Char) :
    (∀ a ∈ (fileStep state c).1, specials a.2 ≤ state.held) ∧
      (fileStep state c).2.held ≤ state.held + specials [c] := by
  have hbackslash : specials ['\\', c] = 1 + specials [c] := specials_cons '\\' [c]
  have hescape : c = '\\' → specials [c] = 1 := by
    rintro rfl
    rfl
  cases state with
  | commentEscape => simp [fileStep, FileState.held]
  | _ =>
    simp only [fileStep]
    split_ifs <;> simp_all [FileState.held, assignment] <;> omega

/-- No value holds more special characters than what is read for it. -/
theorem readFile_held (state : FileState) (s : Str) :
    ∀ a ∈ readFile state s, specials a.2 ≤ state.held + specials s := by
  induction s generalizing state with
  | nil => cases state <;> simp [readFile, fileEnd, FileState.held, assignment]
  | cons c s ih =>
    obtain ⟨hnow, hnext⟩ := fileStep_held state c
    have hcons := specials_cons c s
    intro a ha
    rw [readFile] at ha
    rcases List.mem_append.1 ha with ha | ha
    · have hvalue := hnow a ha
      omega
    · have hvalue := ih (fileStep state c).2 a ha
      omega

/-- The quote that closes a value is taken away. -/
theorem readFile_doubleQuote_held {k v : Str} (t : Str) {state : FileState}
    (hstate : state = .doubleQuote k v ∨ state = .doubleQuoteEscape k v) :
    ∀ a ∈ readFile state (t ++ ['"']), specials a.2 ≤ state.held + specials t := by
  induction t generalizing v state with
  | nil =>
    rcases hstate with rfl | rfl
    · simp [readFile, fileStep, fileEnd, FileState.held, assignment]
    · simp [readFile, fileStep, fileEnd, FileState.held, assignment, isShellSpecial]
      decide
  | cons c t ih =>
    obtain ⟨hnow, hnext⟩ := fileStep_held state c
    have hcons := specials_cons c t
    intro a ha
    rw [List.cons_append, readFile] at ha
    rcases List.mem_append.1 ha with ha | ha
    · have hvalue := hnow a ha
      omega
    by_cases hclose : state = .doubleQuote k v ∧ c = '"'
    · obtain ⟨rfl, rfl⟩ := hclose
      have hvalue : specials a.2 ≤ specials v + specials (t ++ ['"']) := readFile_held _ _ a ha
      have hquote : specials ['"'] = 1 := rfl
      rw [specials_append] at hvalue
      rw [hcons, FileState.held]
      omega
    · have hinside : ∃ v', (fileStep state c).2 = .doubleQuote k v' ∨
          (fileStep state c).2 = .doubleQuoteEscape k v' := by
        rcases hstate with rfl | rfl
        · have hc : (c == '"') = false := by simpa using hclose
          by_cases hbackslash : c = '\\'
          · exact ⟨v, .inr (by simp [fileStep, hbackslash])⟩
          · exact ⟨v ++ [c], .inl (by simp [fileStep, hc, hbackslash])⟩
        · exact ⟨_, .inl rfl⟩
      obtain ⟨v', hv'⟩ := hinside
      have hvalue := ih hv' a ha
      omega

/-- A quoted value holds no more special characters than was written between the quotes. -/
theorem specials_variableValue_quoted {name t v : Str} (hne : name ≠ []) (hname : IsName name)
    (h : variableValue name (name ++ "=\"".toList ++ t ++ ['"']) = some v) :
    specials v ≤ specials t := by
  have hread : readFile .preKey (name ++ "=\"".toList ++ t ++ ['"']) =
      readFile (.doubleQuote name []) (t ++ ['"']) := by
    rw [List.append_assoc, List.append_assoc]
    exact readFile_name hne hname _
  obtain ⟨a, ha, rfl⟩ := Option.map_eq_some_iff.1 h
  rw [hread, List.findRev?_eq_find?_reverse] at ha
  have hmem := List.mem_reverse.1 (List.mem_of_find?_eq_some ha)
  simpa [FileState.held] using readFile_doubleQuote_held t (.inl rfl) a hmem

/-- The special characters of the word being read. -/
def WordState.held : WordState → ℕ
  | .between => 0
  | .word w | .quoted _ w | .escape _ w => specials w

def wordSpecials (ws : List Str) : ℕ := (ws.map specials).sum

theorem wordSpecials_append (ws us : List Str) :
    wordSpecials (ws ++ us) = wordSpecials ws + wordSpecials us := by
  simp [wordSpecials]

theorem wordStep_held (state : WordState) (c : Char) :
    wordSpecials (wordStep state c).1 + (wordStep state c).2.held ≤
      state.held + specials [c] := by
  cases state with
  | escape quote w => cases quote <;> simp [wordStep, WordState.held, wordSpecials]
  | _ =>
    simp only [wordStep]
    split_ifs <;> simp [WordState.held, wordSpecials]

theorem readWords_held (state : WordState) (s : Str) :
    wordSpecials (readWords state s) ≤ state.held + specials s := by
  induction s generalizing state with
  | nil => cases state <;> simp [readWords, wordEnd, WordState.held, wordSpecials]
  | cons c s ih =>
    have hstep := wordStep_held state c
    have hrest := ih (wordStep state c).2
    have hcons := specials_cons c s
    rw [readWords, wordSpecials_append]
    omega

/-- Outside quotes the first special character is taken away. -/
theorem readWords_lt {s : Str} (hs : specials s ≠ 0) :
    wordSpecials (readWords .between s) < specials s ∧
      ∀ w, wordSpecials (readWords (.word w) s) < specials w + specials s := by
  induction s with
  | nil => exact absurd rfl hs
  | cons c s ih =>
    have hcons := specials_cons c s
    cases hc : isSpecial c with
    | true =>
      have hone : specials [c] = 1 := by simp [specials, hc]
      have hblank : isBlank c = false := by
        simp only [isSpecial, Bool.or_eq_true, beq_iff_eq] at hc
        rcases hc with (rfl | rfl) | rfl <;> decide
      have htaken : ∀ state, (state = .between ∨ ∃ w, state = .word w) →
          (wordStep state c).1 = [] ∧ (wordStep state c).2.held = state.held := by
        have hcases : isQuote c = true ∨ c = '\\' := by simpa [isSpecial, isQuote] using hc
        rintro state (rfl | ⟨w, rfl⟩)
        · rcases hcases with hq | rfl
          · simp [wordStep, hblank, hq, WordState.held]
          · exact ⟨rfl, rfl⟩
        · rcases hcases with hq | rfl
          · simp [wordStep, hblank, hq, WordState.held]
          · exact ⟨rfl, rfl⟩
      refine ⟨?_, fun w => ?_⟩
      · obtain ⟨hout, hheld⟩ := htaken .between (.inl rfl)
        have hrest := readWords_held (wordStep .between c).2 s
        rw [readWords, hout, List.nil_append, hcons]
        have hzero : WordState.between.held = 0 := rfl
        omega
      · obtain ⟨hout, hheld⟩ := htaken (.word w) (.inr ⟨w, rfl⟩)
        have hrest := readWords_held (wordStep (.word w) c).2 s
        rw [readWords, hout, List.nil_append, hcons]
        have hword : (WordState.word w).held = specials w := rfl
        omega
    | false =>
      have hnone : specials [c] = 0 := by simp [specials, hc]
      obtain ⟨ihBetween, ihWord⟩ := ih (by omega)
      have hquote : isQuote c = false ∧ (c == '\\') = false := by
        simpa [isSpecial, isQuote, and_assoc] using hc
      refine ⟨?_, fun w => ?_⟩
      · rw [readWords, hcons]
        cases hb : isBlank c with
        | true =>
          rw [wordStep_blank hb, List.nil_append]
          dsimp only
          omega
        | false =>
          have hstep : wordStep .between c = ([], .word [c]) := by
            simp [wordStep, hb, hquote.1, hquote.2]
          have hword := ihWord [c]
          rw [hstep, List.nil_append]
          omega
      · rw [readWords, hcons]
        cases hb : isBlank c with
        | true =>
          have hstep : wordStep (.word w) c = ([w], .between) := by simp [wordStep, hb]
          have hsingle : wordSpecials [w] = specials w := by simp [wordSpecials]
          rw [hstep, wordSpecials_append, hsingle]
          dsimp only
          omega
        | false =>
          have hstep : wordStep (.word w) c = ([], .word (w ++ [c])) := by
            simp [wordStep, hb, hquote.1, hquote.2]
          have hword := ihWord (w ++ [c])
          rw [specials_append] at hword
          rw [hstep, List.nil_append]
          dsimp only
          omega

theorem specials_splitWords_lt {s : Str} (hs : specials s ≠ 0) :
    wordSpecials (splitWords s) < specials s := (readWords_lt hs).1

theorem specials_splitWords_le (s : Str) : wordSpecials (splitWords s) ≤ specials s := by
  simpa [splitWords, WordState.held] using readWords_held .between s

end BitcoinRpcOperator.SystemdArguments
