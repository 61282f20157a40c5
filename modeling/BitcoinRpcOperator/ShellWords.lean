import BitcoinRpcOperator.SystemdArguments

/-!
# `shlex.split`

The POSIX rules of the tokeniser, splitting at white space only and without comments. It
has the states of systemd's splitter and differs from it within quotes: single quotes know
no escape, and in double quotes a backslash stays unless it is before a quote or another
backslash.
-/

namespace BitcoinRpcOperator.ShellWords
open Text SystemdArguments

def shellStep : WordState → Char → List Str × WordState
  | .between, c =>
    if isBlank c then ([], .between)
    else if c == '\\' then ([], .escape none [])
    else if isQuote c then ([], .quoted c [])
    else ([], .word [c])
  | .word w, c =>
    if isBlank c then ([w], .between)
    else if isQuote c then ([], .quoted c w)
    else if c == '\\' then ([], .escape none w)
    else ([], .word (w ++ [c]))
  | .quoted quote w, c =>
    if c == quote then ([], .word w)
    else if c == '\\' && quote == '"' then ([], .escape (some quote) w)
    else ([], .quoted quote (w ++ [c]))
  | .escape none w, c => ([], .word (w ++ [c]))
  | .escape (some quote) w, c =>
    ([], .quoted quote (if c != '\\' && c != quote then w ++ ['\\', c] else w ++ [c]))

/-- Quotations and escapes must end; `none` is `ValueError`. -/
def shellEnd : WordState → Option (List Str)
  | .between => some []
  | .word w => some [w]
  | .quoted _ _ | .escape _ _ => none

def readShell : WordState → Str → Option (List Str)
  | state, [] => shellEnd state
  | state, c :: s => (readShell (shellStep state c).2 s).map ((shellStep state c).1 ++ ·)

def shlexSplit : Str → Option (List Str) := readShell .between

theorem shellStep_between {c : Char} (hblank : isBlank c = false) (hplain : isSpecial c = false) :
    shellStep .between c = ([], .word [c]) := by
  simp only [isSpecial, Bool.or_eq_false_iff, beq_eq_false_iff_ne] at hplain
  simp [shellStep, hblank, isQuote, hplain]

theorem shellStep_word {c : Char} (hblank : isBlank c = false) (hplain : isSpecial c = false)
    (w : Str) : shellStep (.word w) c = ([], .word (w ++ [c])) := by
  simp only [isSpecial, Bool.or_eq_false_iff, beq_eq_false_iff_ne] at hplain
  simp [shellStep, hblank, isQuote, hplain]

theorem isSpecial_of_plain {s : Str} (hs : Plain s) {c : Char} (hc : c ∈ s) :
    isSpecial c = false := by
  obtain ⟨hdouble, hsingle, hbackslash⟩ := hs c hc
  simp [isSpecial, hdouble, hsingle, hbackslash]

/-- Within double quotes plain text is taken as it is. -/
theorem readShell_quoted {t : Str} (ht : Plain t) (w rest : Str) :
    readShell (.quoted '"' w) (t ++ rest) = readShell (.quoted '"' (w ++ t)) rest := by
  induction t generalizing w with
  | nil => simp
  | cons c t ih =>
    obtain ⟨hquote, -, hbackslash⟩ := ht c (by simp)
    have hstep : shellStep (.quoted '"' w) c = ([], .quoted '"' (w ++ [c])) := by
      simp [shellStep, hquote, hbackslash]
    rw [List.cons_append, readShell, hstep, ih fun c hc => ht c (List.mem_cons_of_mem _ hc),
      List.append_assoc]
    simp

theorem readShell_closing (w : Str) : readShell (.quoted '"' w) ['"'] = some [w] := rfl

/-- So is a piece of a word. -/
theorem readShell_word {t : Str} (ht : Plain t) (hblank : ∀ c ∈ t, isBlank c = false)
    (w rest : Str) : readShell (.word w) (t ++ rest) = readShell (.word (w ++ t)) rest := by
  induction t generalizing w with
  | nil => simp
  | cons c t ih =>
    have hstep := shellStep_word (hblank c (by simp)) (isSpecial_of_plain ht (by simp)) w
    rw [List.cons_append, readShell, hstep, ih fun c hc => ht c (List.mem_cons_of_mem _ hc),
      List.append_assoc]
    · simp
    · intro d hd
      exact hblank d (List.mem_cons_of_mem _ hd)

/-- Plain text is split at white space, as systemd splits it. -/
theorem readShell_plain {s : Str} (hs : Plain s) :
    readShell .between s = some (readWords .between s) ∧
      ∀ w, readShell (.word w) s = some (readWords (.word w) s) := by
  induction s with
  | nil => exact ⟨rfl, fun w => rfl⟩
  | cons c s ih =>
    obtain ⟨ihBetween, ihWord⟩ := ih fun c hc => hs c (List.mem_cons_of_mem _ hc)
    have hplain := isSpecial_of_plain hs (List.mem_cons_self (a := c) (l := s))
    have hspecial : isQuote c = false ∧ (c == '\\') = false := by
      simpa [isSpecial, isQuote, and_assoc] using hplain
    cases hblank : isBlank c with
    | true =>
      constructor
      · simp [readShell, readWords, shellStep, wordStep, hblank, ihBetween]
      · intro w
        simp [readShell, readWords, shellStep, wordStep, hblank, ihBetween]
    | false =>
      constructor
      · rw [readShell, readWords, shellStep_between hblank hplain]
        simp [wordStep, hblank, hspecial, ihWord]
      · intro w
        rw [readShell, readWords, shellStep_word hblank hplain]
        simp [wordStep, hblank, hspecial, ihWord]

theorem shlexSplit_plain {s : Str} (hs : Plain s) : shlexSplit s = some (fieldsBy isBlank s) := by
  rw [shlexSplit, (readShell_plain hs).1, (readWords_plain hs).1]

/-- Splitting undoes joining for words that need no quotation. -/
theorem shlexSplit_unwords {ts : List Str}
    (h : ∀ t ∈ ts, t ≠ [] ∧ Plain t ∧ ∀ c ∈ t, isBlank c = false) :
    shlexSplit (unwords ts) = some ts := by
  have hplain : Plain (unwords ts) := by
    intro c hc
    rcases mem_unwords hc with rfl | ⟨t, ht, hc⟩
    · decide
    · exact (h t ht).2.1 c hc
  rw [shlexSplit_plain hplain, fieldsBy_unwords (by decide) fun t ht => ⟨(h t ht).1, (h t ht).2.2⟩]

end BitcoinRpcOperator.ShellWords
