import BitcoinRpcOperator.PatternMatches
import BitcoinRpcOperator.ReleaseInstaller

/-!
# The version in a text

What the pattern of `_version_parts` finds: the longest dotted numeral that begins a word, a
`v` before it left out. Nothing is asked of what stands behind the numeral.
-/

namespace BitcoinRpcOperator.VersionPattern
open Text Backtracking ReleaseInstaller

def dotted (parts : List Str) : Str := ['.'].intercalate parts

def IsComponent (part : Str) : Prop := part ≠ [] ∧ ∀ c ∈ part, isDigit c

/-- The components after the first: each is led by a dot. -/
def laterParts : ℕ → Str → List Str
  | n + 1, '.' :: s =>
    if s.head?.any isDigit then s.takeWhile isDigit :: laterParts n (s.dropWhile isDigit) else []
  | _, _ => []

/-- The components of the longest dotted numeral in front of a text. -/
def frontParts (s : Str) : List Str :=
  if s.head?.any isDigit then
    s.takeWhile isDigit :: laterParts (s.dropWhile isDigit).length (s.dropWhile isDigit)
  else []

def afterFront (s : Str) : Str := s.drop (dotted (frontParts s)).length

def led (parts : List Str) : Str := parts.flatMap fun part => '.' :: part

theorem dotted_cons (part : Str) (parts : List Str) :
    dotted (part :: parts) = part ++ led parts := by
  induction parts generalizing part with
  | nil => simp [dotted, led]
  | cons p parts ih =>
    have hled : led (p :: parts) = '.' :: (p ++ led parts) := by simp [led]
    rw [hled, ← ih p]
    simp [dotted, List.intercalate, List.intersperse]

theorem dot_not_digit : isDigit '.' = false := by decide

/-- The blocks of digits lie between the white space. -/
theorem space_not_digit {c : Char} (hc : isSpace c) : ¬ isDigit c = true := by
  have hblocks : ∀ z ∈ decimalZeros, (32 < z ∧ z + 9 < 0x85) ∨ (0xa0 < z ∧ z + 9 < 0x1680) ∨
      (0x1680 < z ∧ z + 9 < 0x2000) ∨ 0x3000 < z := by decide
  intro h
  obtain ⟨z, hz, hrange⟩ : ∃ z ∈ decimalZeros, z ≤ c.toNat ∧ c.toNat ≤ z + 9 := by
    simpa [isDigit, digit?] using h
  have hblock := hblocks z hz
  simp only [isSpace, Bool.or_eq_true, Bool.and_eq_true, decide_eq_true_eq, beq_iff_eq] at hc
  omega

theorem takeWhile_isComponent {s : Str} (h : s.head?.any isDigit) :
    IsComponent (s.takeWhile isDigit) := by
  cases s with
  | nil => cases h
  | cons c s =>
    have hc : isDigit c := h
    refine ⟨by simp [hc], ?_⟩
    intro d hd
    exact List.mem_takeWhile_imp hd

theorem exists_of_laterParts {n : ℕ} {s : Str} (h : laterParts n s ≠ []) :
    ∃ u, s = '.' :: u ∧ u.head?.any isDigit := by
  fun_cases laterParts n s with
  | case1 n u hu => exact ⟨u, rfl, hu⟩
  | case2 n u hu =>
    simp only [laterParts, hu] at h
    exact absurd rfl h
  | case3 n s hnot =>
    rw [laterParts] at h
    · exact absurd rfl h
    · exact hnot

theorem laterParts_isComponent (n : ℕ) (s : Str) : ∀ p ∈ laterParts n s, IsComponent p := by
  fun_induction laterParts n s with
  | case1 n s hs ih =>
    intro p hp
    rcases List.mem_cons.1 hp with rfl | hp
    · exact takeWhile_isComponent hs
    · exact ih p hp
  | case2 n s hs => exact nofun
  | case3 n s => exact nofun

theorem frontParts_isComponent (s : Str) : ∀ p ∈ frontParts s, IsComponent p := by
  intro p hp
  unfold frontParts at hp
  split at hp
  · rename_i hs
    rcases List.mem_cons.1 hp with rfl | hp
    · exact takeWhile_isComponent hs
    · exact laterParts_isComponent _ _ p hp
  · cases hp

/-- Text that neither begins with a digit nor with a dot before one ends a numeral. -/
def Ends (s : Str) : Prop := s.head?.any isDigit = false ∧ laterParts 1 s = []

theorem laterParts_ends {s : Str} (h : laterParts 1 s = []) (n : ℕ) : laterParts n s = [] := by
  match n, s with
  | 0, s => rfl
  | n + 1, [] => rfl
  | n + 1, c :: s =>
    by_cases hc : c = '.'
    · subst hc
      by_cases hs : s.head?.any isDigit
      · simp [laterParts, hs] at h
      · simp [laterParts, hs]
    · simp [laterParts, hc]

theorem takeWhile_component {p : Str} (hp : IsComponent p) {s : Str}
    (hs : s.head?.any isDigit = false) :
    (p ++ s).takeWhile isDigit = p ∧ (p ++ s).dropWhile isDigit = s := by
  have hstop : s.takeWhile isDigit = [] ∧ s.dropWhile isDigit = s := by
    cases s with
    | nil => exact ⟨rfl, rfl⟩
    | cons c s =>
      have hc : isDigit c = false := hs
      simp [hc]
  constructor
  · rw [List.takeWhile_append_of_pos hp.2, hstop.1, List.append_nil]
  · rw [List.dropWhile_append_of_pos hp.2, hstop.2]

theorem head?_component {p : Str} (hp : IsComponent p) (s : Str) :
    (p ++ s).head?.any isDigit := by
  obtain ⟨hne, hdigits⟩ := hp
  cases p with
  | nil => exact absurd rfl hne
  | cons c p => exact hdigits c List.mem_cons_self

theorem head?_led (parts : List Str) {s : Str} (hs : s.head?.any isDigit = false) :
    (led parts ++ s).head?.any isDigit = false := by
  cases parts with
  | nil => exact hs
  | cons p parts => exact dot_not_digit

theorem laterParts_led {parts : List Str} (hparts : ∀ p ∈ parts, IsComponent p) {s : Str}
    (hs : Ends s) {n : ℕ} (hn : parts.length ≤ n) : laterParts n (led parts ++ s) = parts := by
  induction parts generalizing n with
  | nil => exact laterParts_ends hs.2 n
  | cons p parts ih =>
    obtain ⟨n, rfl⟩ : ∃ m, n = m + 1 := ⟨n - 1, by simp at hn; omega⟩
    have hp := hparts p List.mem_cons_self
    have hled : led (p :: parts) ++ s = '.' :: (p ++ (led parts ++ s)) := by simp [led]
    obtain ⟨htake, hdrop⟩ := takeWhile_component hp (head?_led parts hs.1)
    rw [hled, laterParts, if_pos (head?_component hp _), htake, hdrop,
      ih (fun q hq => hparts q (List.mem_cons_of_mem _ hq))]
    simpa using hn

theorem length_led (parts : List Str) : parts.length ≤ (led parts).length := by
  induction parts with
  | nil => exact le_rfl
  | cons p parts ih =>
    simp only [led, List.flatMap_cons, List.length_append, List.length_cons] at ih ⊢
    omega

/-- A numeral in front of something that ends it is read whole. -/
theorem frontParts_dotted {parts : List Str} (hparts : ∀ p ∈ parts, IsComponent p) {s : Str}
    (hs : Ends s) : frontParts (dotted parts ++ s) = parts := by
  cases parts with
  | nil =>
    have hnone : ¬ (dotted [] ++ s).head?.any isDigit = true := by
      have hhead := hs.1
      simpa [dotted] using hhead
    rw [frontParts, if_neg hnone]
  | cons p parts =>
    have hp := hparts p List.mem_cons_self
    obtain ⟨htake, hdrop⟩ := takeWhile_component hp (head?_led parts hs.1)
    rw [dotted_cons, List.append_assoc, frontParts, if_pos (head?_component hp _), htake, hdrop,
      laterParts_led (fun q hq => hparts q (List.mem_cons_of_mem _ hq)) hs]
    have hlength := length_led parts
    rw [List.length_append]
    omega

theorem ends_nil : Ends [] := ⟨rfl, rfl⟩

theorem head?_dropWhile (s : Str) : (s.dropWhile isDigit).head?.any isDigit = false := by
  cases hrest : s.dropWhile isDigit with
  | nil => rfl
  | cons c rest =>
    have hne : s.dropWhile isDigit ≠ [] := by simp [hrest]
    simpa [hrest] using List.head_dropWhile_not isDigit hne

/-- What is behind all led components ends the numeral. -/
theorem laterParts_complete (n : ℕ) (s : Str) (hn : s.length ≤ n)
    (hhead : s.head?.any isDigit = false) :
    ∃ rest, s = led (laterParts n s) ++ rest ∧ Ends rest := by
  fun_induction laterParts n s with
  | case1 n s hs ih =>
    have hdrop := (List.dropWhile_suffix (p := isDigit) (l := s)).length_le
    obtain ⟨rest, hrest, hends⟩ := ih (by simp at hn; omega) (head?_dropWhile s)
    refine ⟨rest, ?_, hends⟩
    have hled : led (s.takeWhile isDigit :: laterParts n (s.dropWhile isDigit)) =
        '.' :: (s.takeWhile isDigit ++ led (laterParts n (s.dropWhile isDigit))) := by simp [led]
    rw [hled, List.cons_append, List.append_assoc, ← hrest, List.takeWhile_append_dropWhile]
  | case2 n s hs => exact ⟨_, rfl, hhead, by simp [laterParts, hs]⟩
  | case3 n s hnot =>
    refine ⟨s, rfl, hhead, ?_⟩
    cases s with
    | nil => rfl
    | cons c s =>
      by_cases hc : c = '.'
      · subst hc
        obtain ⟨m, rfl⟩ : ∃ m, n = m + 1 := ⟨n - 1, by simp at hn; omega⟩
        exact absurd rfl (hnot m s rfl)
      · simp [laterParts, hc]

theorem frontParts_complete (s : Str) :
    ∃ rest, s = dotted (frontParts s) ++ rest ∧ (frontParts s ≠ [] → Ends rest) := by
  unfold frontParts
  split
  · obtain ⟨rest, hrest, hends⟩ :=
      laterParts_complete _ (s.dropWhile isDigit) le_rfl (head?_dropWhile s)
    refine ⟨rest, ?_, fun _ => hends⟩
    rw [dotted_cons, List.append_assoc, ← hrest, List.takeWhile_append_dropWhile]
  · exact ⟨s, rfl, fun h => absurd rfl h⟩

/-- White space behind a text does not lengthen its numeral. -/
theorem frontParts_append_space {s u : Str} {c : Char} (hc : isSpace c) :
    frontParts (s ++ c :: u) = frontParts s := by
  have hdigit : isDigit c = false := by
    by_contra h
    exact space_not_digit hc (by simpa using h)
  have hdot : c ≠ '.' := by
    rintro rfl
    exact absurd hc (by decide)
  obtain ⟨rest, hrest, hends⟩ := frontParts_complete s
  by_cases hs : frontParts s = []
  · have hhead : ¬ (s ++ c :: u).head?.any isDigit = true := by
      have hnone : ¬ s.head?.any isDigit = true := by
        intro h
        rw [frontParts, if_pos h] at hs
        cases hs
      cases s with
      | nil => simpa using hdigit
      | cons d s => exact hnone
    rw [hs, frontParts, if_neg hhead]
  · have hbehind : Ends (rest ++ c :: u) := by
      obtain ⟨hhead, hlater⟩ := hends hs
      match rest with
      | [] => exact ⟨hdigit, by simp [laterParts, hdot]⟩
      | [d] =>
        refine ⟨hhead, ?_⟩
        by_cases hd : d = '.'
        · subst hd
          simp [laterParts, hdigit]
        · simp [laterParts, hd]
      | d :: e :: rest =>
        refine ⟨hhead, ?_⟩
        by_cases hd : d = '.'
        · subst hd
          by_cases he : isDigit e = true
          · simp [laterParts, he] at hlater
          · simp [laterParts, he]
        · simp [laterParts, hd]
    conv_lhs => rw [hrest, List.append_assoc]
    exact frontParts_dotted (frontParts_isComponent s) hbehind

theorem laterParts_fuel {s : Str} (hhead : s.head?.any isDigit = false) {n m : ℕ}
    (hn : s.length ≤ n) (hm : s.length ≤ m) : laterParts n s = laterParts m s := by
  obtain ⟨rest, hrest, hends⟩ := laterParts_complete n s hn hhead
  have hlength : (laterParts n s).length ≤ m := by
    have htotal := congrArg List.length hrest
    have hled := length_led (laterParts n s)
    rw [List.length_append] at htotal
    omega
  conv_rhs => rw [hrest]
  exact (laterParts_led (laterParts_isComponent n s) hends hlength).symm

/-- A cursor moved on by the length of a text that is there. -/
def past (c : Cursor) (a : Str) : Cursor := ⟨a.reverse ++ c.passed, c.rest.drop a.length, c.groups⟩

theorem past_append (c : Cursor) (a b : Str) : past c (a ++ b) = past (past c a) b := by
  simp [past]

theorem drop_takeWhile (p : Char → Bool) (s : Str) :
    s.drop (s.takeWhile p).length = s.dropWhile p := by
  have hparts := congrArg (List.drop (s.takeWhile p).length)
    (List.takeWhile_append_dropWhile (p := p) (l := s))
  rw [List.drop_left] at hparts
  exact hparts.symm

theorem skip_eq_past (p : Char → Bool) (c : Cursor) : c.skip p = past c (c.rest.takeWhile p) := by
  rw [past, drop_takeWhile]
  rfl

/-- Past a dot and the digits behind it. -/
theorem past_component (passed s : Str) (gs : List (ℕ × Str)) (a : Str) :
    past ⟨passed, '.' :: s, gs⟩ (led [s.takeWhile isDigit] ++ a) =
      past ⟨(s.takeWhile isDigit).reverse ++ '.' :: passed, s.dropWhile isDigit, gs⟩ a := by
  rw [past_append]
  simp [past, led, drop_takeWhile]

theorem led_cons (part : Str) (parts : List Str) : led (part :: parts) = led [part] ++ led parts := by
  simp [led]

def component : Pattern := .seq (.lit '.') digits

section
variable {k : Continuation} {c d : Cursor}

theorem run_digits_none (h : ¬ c.rest.head?.any isDigit = true) : run digits k c = none := by
  obtain ⟨passed, s, gs⟩ := c
  cases s with
  | nil => rfl
  | cons x s =>
    have hx : ¬ isDigit x = true := h
    rw [digits, run_plus, run_char_cons, if_neg hx]

theorem run_digits_of_some (h : c.rest.head?.any isDigit) (hk : k (c.skip isDigit) = some d) :
    run digits k c = some d := by
  obtain ⟨passed, s, gs⟩ := c
  cases s with
  | nil => cases h
  | cons x s =>
    have hx : isDigit x = true := h
    rw [digits, run_plus, run_char_cons, if_pos hx]
    apply run_star_char_of_some
    simpa [Cursor.skip, hx] using hk

/-- Before something that is no digit the digits are read as a whole. -/
theorem run_digits_of_reject (h : c.rest.head?.any isDigit)
    (hk : ∀ m : Cursor, m.rest.head?.any isDigit → k m = none) :
    run digits k c = k (c.skip isDigit) := by
  obtain ⟨passed, s, gs⟩ := c
  cases s with
  | nil => cases h
  | cons x s =>
    have hx : isDigit x = true := h
    rw [digits, run_plus, run_char_cons, if_pos hx, run_star_char_of_reject hk]
    simp [Cursor.skip, hx]

theorem run_component_none {s : Str} (h : laterParts 1 s = []) (passed : Str)
    (gs : List (ℕ × Str)) : run component k ⟨passed, s, gs⟩ = none := by
  cases s with
  | nil => rfl
  | cons x s =>
    rw [component, run_seq, Pattern.lit, run_char_cons]
    by_cases hx : x = '.'
    · subst hx
      rw [if_pos (by rfl)]
      apply run_digits_none
      intro hdigit
      simp [laterParts, hdigit] at h
    · rw [if_neg (by simpa using hx)]

theorem run_component_of_some {s passed : Str} {gs : List (ℕ × Str)} (h : s.head?.any isDigit)
    (hk : k ⟨(s.takeWhile isDigit).reverse ++ '.' :: passed, s.dropWhile isDigit, gs⟩ = some d) :
    run component k ⟨passed, '.' :: s, gs⟩ = some d := by
  rw [component, run_seq, Pattern.lit, run_char_cons, if_pos (by rfl)]
  exact run_digits_of_some h hk

/-- The components after the first are all taken, where nothing behind them can fail. -/
theorem run_components (hk : ∀ m, ∃ d, k m = some d) (n : ℕ) (passed s : Str)
    (gs : List (ℕ × Str)) (hn : s.length ≤ n) : repeatGreedy (run component) k n ⟨passed, s, gs⟩ =
      k (past ⟨passed, s, gs⟩ (led (laterParts n s))) := by
  fun_induction laterParts n s generalizing passed with
  | case1 n s hs ih =>
    have hdrop := (List.dropWhile_suffix (p := isDigit) (l := s)).length_le
    have hrest := ih ((s.takeWhile isDigit).reverse ++ '.' :: passed) (by simp at hn; omega)
    obtain ⟨d, hd⟩ := hk (past ⟨(s.takeWhile isDigit).reverse ++ '.' :: passed,
      s.dropWhile isDigit, gs⟩ (led (laterParts n (s.dropWhile isDigit))))
    have hfirst : run component (fun c' =>
        if c'.rest.length < ('.' :: s).length then repeatGreedy (run component) k n c' else none)
        ⟨passed, '.' :: s, gs⟩ = some d := by
      apply run_component_of_some hs
      rw [if_pos (by simp; omega), hrest, hd]
    rw [repeatGreedy, hfirst, led_cons, past_component, hd]
    rfl
  | case2 n s hs =>
    rw [repeatGreedy, run_component_none (by simp [laterParts, hs])]
    rfl
  | case3 n s hnot =>
    cases n with
    | zero =>
      obtain rfl := List.length_eq_zero_iff.1 (Nat.le_zero.1 hn)
      rfl
    | succ n =>
      have hnone : laterParts 1 s = [] := by
        cases s with
        | nil => rfl
        | cons x s =>
          have hx : x ≠ '.' := by
            rintro rfl
            exact hnot n s rfl rfl
          simp [laterParts, hx]
      rw [repeatGreedy, run_component_none hnone]
      rfl

/-- The numeral of a version takes the longest dotted numeral, if that has two components. -/
theorem run_numeral (hk : ∀ m, ∃ d, k m = some d) (c : Cursor) :
    run (.seq digits (.plus component)) k c =
      if 2 ≤ (frontParts c.rest).length then k (past c (dotted (frontParts c.rest))) else none := by
  obtain ⟨passed, s, gs⟩ := c
  by_cases hs : s.head?.any isDigit
  swap
  · rw [run_seq, run_digits_none hs, frontParts, if_neg hs]
    rfl
  have hreject : ∀ m : Cursor, m.rest.head?.any isDigit → run (.plus component) k m = none := by
    rintro ⟨passed, t, gs⟩ ht
    apply run_component_none
    cases t with
    | nil => rfl
    | cons x t =>
      have hx : x ≠ '.' := by
        rintro rfl
        have hdot : isDigit '.' = true := ht
        rw [dot_not_digit] at hdot
        cases hdot
      simp [laterParts, hx]
  rw [run_seq, run_digits_of_reject hs hreject, frontParts, if_pos hs, run_plus]
  have hstop := head?_dropWhile s
  have hsplit : s = s.takeWhile isDigit ++ s.dropWhile isDigit :=
    List.takeWhile_append_dropWhile.symm
  have hpast : past ⟨passed, s, gs⟩ (s.takeWhile isDigit) =
      ⟨(s.takeWhile isDigit).reverse ++ passed, s.dropWhile isDigit, gs⟩ :=
    (skip_eq_past isDigit ⟨passed, s, gs⟩).symm
  have hstop := head?_dropWhile s
  rw [dotted_cons, past_append, hpast]
  change run component _ ⟨(s.takeWhile isDigit).reverse ++ passed, s.dropWhile isDigit, gs⟩ = _
  generalize (s.takeWhile isDigit).reverse ++ passed = passed'
  generalize s.dropWhile isDigit = t at hstop
  cases hparts : laterParts t.length t with
  | nil =>
    have hnone : laterParts 1 t = [] := by
      by_contra hsome
      obtain ⟨u, rfl, hu⟩ := exists_of_laterParts hsome
      rw [List.length_cons, laterParts, if_pos hu] at hparts
      cases hparts
    rw [run_component_none hnone]
    rfl
  | cons p parts =>
    obtain ⟨u, rfl, hu⟩ := exists_of_laterParts (hparts ▸ List.cons_ne_nil p parts)
    have hdrop := (List.dropWhile_suffix (p := isDigit) (l := u)).length_le
    rw [List.length_cons, laterParts, if_pos hu] at hparts
    obtain ⟨rfl, rfl⟩ := List.cons.inj hparts
    rw [if_pos (by simp), led_cons, past_component,
      laterParts_fuel (head?_dropWhile u) hdrop le_rfl]
    obtain ⟨d, hd⟩ := hk (past ⟨(u.takeWhile isDigit).reverse ++ '.' :: passed', u.dropWhile isDigit,
      gs⟩ (led (laterParts (u.dropWhile isDigit).length (u.dropWhile isDigit))))
    rw [hd]
    apply run_component_of_some hu
    exact (run_components hk _ _ _ gs le_rfl).trans hd

end

/-- A word without a `v` in front. -/
def dropV : Str → Str
  | 'v' :: s => s
  | s => s

/-- The components of the version that a word says. -/
def said (word : Str) : Option (List Str) :=
  if 2 ≤ (frontParts (dropV word)).length then some (frontParts (dropV word)) else none

/-- The pattern of a version behind what leads it. -/
def numeralPattern : Pattern :=
  .seqs [.opt (.lit 'v'), .group 1 (.seq digits (.plus component))]

theorem frontParts_of_not_digit {s : Str} (h : ¬ s.head?.any isDigit = true) :
    frontParts s = [] := if_neg h

theorem run_group_numeral (c : Cursor) :
    (run (.seqs [.group 1 (.seq digits (.plus component))]) some c).map (·.captured 1) =
      if 2 ≤ (frontParts c.rest).length then some (dotted (frontParts c.rest)) else none := by
  have htext : c.textTo (past c (dotted (frontParts c.rest))) = dotted (frontParts c.rest) := by
    apply Cursor.Moved.textTo
    refine ⟨?_, rfl⟩
    obtain ⟨rest, hrest, -⟩ := frontParts_complete c.rest
    have hdrop := congrArg (List.drop (dotted (frontParts c.rest)).length) hrest
    rw [List.drop_left] at hdrop
    rw [past, hdrop]
    exact hrest
  rw [run_seqs_cons, run_group]
  simp only [run_seqs_nil]
  rw [run_numeral fun m => ⟨_, rfl⟩]
  split
  · simp only [Option.map_some, Cursor.captured, List.lookup_cons_self, htext]
    rfl
  · rfl

theorem run_numeralPattern (c : Cursor) :
    (run numeralPattern some c).map (·.captured 1) = (said c.rest).map dotted := by
  have hgroup : ∀ c : Cursor, ¬ c.rest.head?.any isDigit = true →
      run (.seqs [.group 1 (.seq digits (.plus component))]) some c = none := by
    intro c hc
    have hnone := run_group_numeral c
    rw [frontParts_of_not_digit hc] at hnone
    exact Option.map_eq_none_iff.1 hnone
  have hsaid : (said c.rest).map dotted = if 2 ≤ (frontParts (dropV c.rest)).length then
      some (dotted (frontParts (dropV c.rest))) else none := by
    unfold said
    split <;> rfl
  obtain ⟨passed, s, gs⟩ := c
  rw [numeralPattern, run_seqs_cons, run_opt, hsaid]
  by_cases hv : s.head? = some 'v'
  · obtain ⟨s, rfl⟩ : ∃ t, s = 'v' :: t := by
      cases s with
      | nil => cases hv
      | cons x s => exact ⟨s, by rw [Option.some.inj hv]⟩
    rw [hgroup ⟨passed, 'v' :: s, gs⟩ (by simp; decide), Option.or_none, Pattern.lit, run_char_cons,
      if_pos (by rfl), run_group_numeral]
    rfl
  · have hlit : run (.lit 'v') (run (.seqs [.group 1 (.seq digits (.plus component))]) some)
        ⟨passed, s, gs⟩ = none := by
      cases s with
      | nil => rfl
      | cons x s =>
        rw [Pattern.lit, run_char_cons, if_neg]
        intro hx
        exact hv (congrArg some (by simpa using hx))
    have hdrop : dropV s = s := by
      unfold dropV
      split
      · exact absurd rfl hv
      · rfl
    rw [hlit, Option.none_or, run_group_numeral, hdrop]

/-- Where the pattern of a version can begin: at the start of the text or at white space. -/
theorem matchAt_versionPattern (c : Cursor) : matchAt versionPattern c =
    (if c.passed = [] then run numeralPattern some c else none).or
      (run (.char isSpace) (run numeralPattern some) c) := by
  have hstart : run .textStart (run numeralPattern some) c =
      if c.passed = [] then run numeralPattern some c else none := by
    rw [run]
    exact if_congr List.isEmpty_iff rfl rfl
  rw [← hstart]
  rfl

/-- Within a word there is nothing to find. -/
theorem searchFrom_word {w : Str} (hw : ∀ c ∈ w, isSpace c = false) {passed : Str}
    (hpassed : passed ≠ []) (s : Str) :
    searchFrom versionPattern passed (w ++ s) =
      searchFrom versionPattern (w.reverse ++ passed) s := by
  induction w generalizing passed with
  | nil => rfl
  | cons x w ih =>
    have hx : ¬ isSpace x = true := by simp [hw x List.mem_cons_self]
    have hnone : matchAt versionPattern ⟨passed, x :: (w ++ s), []⟩ = none := by
      rw [matchAt_versionPattern, if_neg hpassed, run_char_cons, if_neg hx]
      rfl
    rw [List.cons_append, searchFrom, hnone, Option.none_or,
      ih (fun c hc => hw c (List.mem_cons_of_mem _ hc)) (List.cons_ne_nil _ _), List.reverse_cons,
      List.append_assoc]
    rfl

/-- Words, each with a space before it. -/
def spaced (ws : List Str) : Str := ws.flatMap fun w => ' ' :: w

/-- A word without white space. -/
def IsWord (w : Str) : Prop := w ≠ [] ∧ ∀ c ∈ w, isSpace c = false

theorem unwords_eq_spaced (w : Str) (ws : List Str) : unwords (w :: ws) = w ++ spaced ws := by
  induction ws generalizing w with
  | nil => simp [spaced]
  | cons v ws ih =>
    have hspaced : spaced (v :: ws) = ' ' :: (v ++ spaced ws) := by simp [spaced]
    rw [unwords_cons_cons, ih, hspaced]

theorem said_spaced {w : Str} (hw : IsWord w) (ws : List Str) : said (w ++ spaced ws) = said w := by
  have hdrop : dropV (w ++ spaced ws) = dropV w ++ spaced ws := by
    obtain ⟨c, w, rfl⟩ := List.exists_cons_of_ne_nil hw.1
    rw [List.cons_append]
    unfold dropV
    split
    · rename_i heq
      obtain ⟨rfl, rfl⟩ := List.cons.inj heq
      rfl
    · rename_i hnot
      split
      · rename_i s heq
        obtain ⟨rfl, rfl⟩ := List.cons.inj heq
        exact absurd rfl (hnot _)
      · rfl
  have hfront : frontParts (dropV w ++ spaced ws) = frontParts (dropV w) := by
    cases ws with
    | nil => rw [spaced, List.flatMap_nil, List.append_nil]
    | cons v ws =>
      have hspaced : spaced (v :: ws) = ' ' :: (v ++ spaced ws) := by simp [spaced]
      rw [hspaced]
      exact frontParts_append_space (by decide)
  rw [said, hdrop, hfront]
  rfl

theorem searchFrom_spaced {ws : List Str} (hws : ∀ w ∈ ws, IsWord w) {passed : Str}
    (hpassed : passed ≠ []) :
    (searchFrom versionPattern passed (spaced ws)).map (·.captured 1) =
      (ws.findSome? said).map dotted := by
  induction ws generalizing passed with
  | nil =>
    have hnone : searchFrom versionPattern passed (spaced []) = none := by
      change matchAt versionPattern ⟨passed, [], []⟩ = none
      rw [matchAt_versionPattern, if_neg hpassed]
      rfl
    rw [hnone]
    rfl
  | cons w ws ih =>
    have hw := hws w List.mem_cons_self
    have hspaced : spaced (w :: ws) = ' ' :: (w ++ spaced ws) := by simp [spaced]
    have hmatch : (matchAt versionPattern ⟨passed, ' ' :: (w ++ spaced ws), []⟩).map
        (·.captured 1) = (said w).map dotted := by
      rw [matchAt_versionPattern, if_neg hpassed, Option.none_or, run_char_cons, if_pos (by decide),
        run_numeralPattern, said_spaced hw]
    rw [hspaced, searchFrom, Option.map_or, hmatch, searchFrom_word hw.2 (List.cons_ne_nil _ _),
      ih (fun v hv => hws v (List.mem_cons_of_mem _ hv)) (by simp), List.findSome?_cons]
    cases said w <;> rfl

/-- The version found in a text is that of the first word that says one. -/
theorem search_words {ws : List Str} (hne : ws ≠ []) (hws : ∀ w ∈ ws, IsWord w) :
    (search versionPattern (unwords ws)).map (·.captured 1) = (ws.findSome? said).map dotted := by
  obtain ⟨w, ws, rfl⟩ := List.exists_cons_of_ne_nil hne
  have hw := hws w List.mem_cons_self
  obtain ⟨x, w', rfl⟩ := List.exists_cons_of_ne_nil hw.1
  have hx : ¬ isSpace x = true := by simp [hw.2 x List.mem_cons_self]
  have hmatch : (matchAt versionPattern ⟨[], x :: (w' ++ spaced ws), []⟩).map (·.captured 1) =
      (said (x :: w')).map dotted := by
    rw [matchAt_versionPattern, if_pos rfl, run_char_cons, if_neg hx, Option.or_none,
      run_numeralPattern]
    exact congrArg (Option.map dotted) (said_spaced hw ws)
  rw [unwords_eq_spaced, search, List.cons_append, searchFrom, Option.map_or, hmatch,
    searchFrom_word (fun c hc => hw.2 c (List.mem_cons_of_mem _ hc)) (List.cons_ne_nil _ _),
    searchFrom_spaced (fun v hv => hws v (List.mem_cons_of_mem _ hv)) (by simp),
    List.findSome?_cons]
  cases said (x :: w') <;> rfl

end BitcoinRpcOperator.VersionPattern
