import BitcoinRpcOperator.Text

/-!
# A backtracking regular expression matcher

The matching discipline of Python's `re`: alternatives are tried in order, a
repetition takes as much as it can and gives characters back one at a time, and
the first complete match wins. A pattern is run against a continuation, so that
what follows a repetition decides how far it has to give back.

Character classes are predicates, so a case-insensitive class is one that accepts
both cases. `sub` replaces the leftmost matches from left to right, as `re.sub`.
-/

namespace BitcoinRpcOperator.Backtracking
open Text

inductive Pattern where
  | empty
  | char (p : Char → Bool)
  | seq (r s : Pattern)
  | alt (r s : Pattern)
  /-- Greedy repetition, zero or more times. -/
  | star (r : Pattern)
  | group (i : ℕ) (r : Pattern)
  /-- `(?<![...])` -/
  | notAfter (p : Char → Bool)
  /-- `\b` for the given word characters. -/
  | boundary (word : Char → Bool)
  /-- `^` without the multi-line flag. -/
  | textStart
  /-- `^` with the multi-line flag. -/
  | lineStart
  /-- `$` with the multi-line flag. -/
  | lineEnd

/-- A place in the text: the characters passed, latest first, those that remain,
and the groups captured so far, latest first. -/
structure Cursor where
  passed : Str
  rest : Str
  groups : List (ℕ × Str) := []

namespace Cursor

/-- The text between two places of one match. -/
def textTo (c d : Cursor) : Str := c.rest.take (c.rest.length - d.rest.length)

/-- The text a group captured last, empty when it took no part. -/
def captured (c : Cursor) (i : ℕ) : Str := (c.groups.lookup i).getD []

def step (c : Cursor) : Cursor :=
  match c.rest with
  | [] => c
  | x :: xs => ⟨x :: c.passed, xs, c.groups⟩

/-- Move past the longest run of characters that `p` accepts. -/
def skip (p : Char → Bool) (c : Cursor) : Cursor :=
  ⟨(c.rest.takeWhile p).reverse ++ c.passed, c.rest.dropWhile p, c.groups⟩

end Cursor

abbrev Continuation := Cursor → Option Cursor

/-- Iterate `body` greedily, at most `fuel` times, each time over a non-empty text. -/
def repeatGreedy (body : Continuation → Continuation) (k : Continuation) : ℕ → Continuation
  | 0, c => k c
  | n + 1, c =>
    (body (fun c' => if c'.rest.length < c.rest.length then repeatGreedy body k n c' else none) c).or
      (k c)

def run : Pattern → Continuation → Continuation
  | .empty, k, c => k c
  | .char p, k, c =>
    match c.rest with
    | [] => none
    | x :: xs => if p x then k ⟨x :: c.passed, xs, c.groups⟩ else none
  | .seq r s, k, c => run r (run s k) c
  | .alt r s, k, c => (run r k c).or (run s k c)
  | .star r, k, c => repeatGreedy (run r) k c.rest.length c
  | .group i r, k, c => run r (fun d => k ⟨d.passed, d.rest, (i, c.textTo d) :: d.groups⟩) c
  | .notAfter p, k, c => if c.passed.head?.any p then none else k c
  | .boundary word, k, c =>
    if c.passed.head?.any word != c.rest.head?.any word then k c else none
  | .textStart, k, c => if c.passed.isEmpty then k c else none
  | .lineStart, k, c => if c.passed.head?.all (· == '\n') then k c else none
  | .lineEnd, k, c => if c.rest.head?.all (· == '\n') then k c else none

def Pattern.opt (r : Pattern) : Pattern := .alt r .empty

def Pattern.plus (r : Pattern) : Pattern := .seq r (.star r)

def Pattern.times (r : Pattern) : ℕ → Pattern
  | 0 => .empty
  | n + 1 => .seq r (r.times n)

def Pattern.seqs : List Pattern → Pattern
  | [] => .empty
  | r :: rs => .seq r (seqs rs)

def Pattern.alts : List Pattern → Pattern
  | [] => .empty
  | [r] => r
  | r :: rs => .alt r (alts rs)

def Pattern.lit (c : Char) : Pattern := .char (· == c)

def Pattern.text (s : Str) : Pattern := .seqs (s.map .lit)

/-- The match of `r` that starts at the cursor. -/
def matchAt (r : Pattern) (c : Cursor) : Option Cursor := run r some c

def fullmatch (r : Pattern) (s : Str) : Option Cursor :=
  run r (fun c => if c.rest.isEmpty then some c else none) ⟨[], s, []⟩

/-- `re.search` from a place with `passed` behind it. -/
def searchFrom (r : Pattern) (passed : Str) : Str → Option Cursor
  | [] => matchAt r ⟨passed, [], []⟩
  | x :: s => (matchAt r ⟨passed, x :: s, []⟩).or (searchFrom r (x :: passed) s)

def search (r : Pattern) (s : Str) : Option Cursor := searchFrom r [] s

/-- `re.sub` on at most `fuel` places: `f` gets the text of the match and its groups. -/
def subFuel (r : Pattern) (f : Str → Cursor → Str) : ℕ → Str → Str → Str
  | 0, _, s => s
  | n + 1, passed, s =>
    match matchAt r ⟨passed, s, []⟩, s with
    | none, [] => []
    | none, x :: s' => x :: subFuel r f n (x :: passed) s'
    | some d, [] => f [] d
    | some d, x :: s' =>
      if d.rest.length < s.length then
        f (s.take (s.length - d.rest.length)) d ++ subFuel r f n d.passed d.rest
      else f [] d ++ x :: subFuel r f n (x :: passed) s'

/-- Substitution in `s` when `passed` precedes it. -/
def subFrom (r : Pattern) (f : Str → Cursor → Str) (passed s : Str) : Str :=
  subFuel r f (s.length + 1) passed s

def sub (r : Pattern) (f : Str → Cursor → Str) (s : Str) : Str := subFrom r f [] s

variable {k : Continuation} {c : Cursor}

@[simp] theorem run_empty : run .empty k c = k c := rfl

@[simp] theorem run_seq (r s : Pattern) : run (.seq r s) k c = run r (run s k) c := rfl

@[simp] theorem run_alt (r s : Pattern) : run (.alt r s) k c = (run r k c).or (run s k c) := rfl

@[simp] theorem run_group (i : ℕ) (r : Pattern) : run (.group i r) k c =
    run r (fun d => k ⟨d.passed, d.rest, (i, c.textTo d) :: d.groups⟩) c := rfl

@[simp] theorem run_char_nil (p : Char → Bool) (passed : Str) (gs : List (ℕ × Str)) :
    run (.char p) k ⟨passed, [], gs⟩ = none := rfl

@[simp] theorem run_char_cons (p : Char → Bool) (passed : Str) (x : Char) (xs : Str)
    (gs : List (ℕ × Str)) : run (.char p) k ⟨passed, x :: xs, gs⟩ =
      if p x then k ⟨x :: passed, xs, gs⟩ else none := rfl

@[simp] theorem run_opt (r : Pattern) : run r.opt k c = (run r k c).or (k c) := rfl

@[simp] theorem run_plus (r : Pattern) : run r.plus k c = run r (run (.star r) k) c := rfl

@[simp] theorem run_seqs_nil : run (.seqs []) k c = k c := rfl

@[simp] theorem run_seqs_cons (r : Pattern) (rs : List Pattern) :
    run (.seqs (r :: rs)) k c = run r (run (.seqs rs) k) c := rfl

theorem run_star_char_nil (p : Char → Bool) (passed : Str) (gs : List (ℕ × Str)) :
    run (.star (.char p)) k ⟨passed, [], gs⟩ = k ⟨passed, [], gs⟩ := rfl

/-- One step of a repeated class: take a character if the class accepts it, and
give it back when nothing further on matches. -/
theorem run_star_char_cons (p : Char → Bool) (passed : Str) (x : Char) (xs : Str)
    (gs : List (ℕ × Str)) : run (.star (.char p)) k ⟨passed, x :: xs, gs⟩ =
      if p x then (run (.star (.char p)) k ⟨x :: passed, xs, gs⟩).or (k ⟨passed, x :: xs, gs⟩)
      else k ⟨passed, x :: xs, gs⟩ := by
  by_cases hx : p x <;> simp [run, repeatGreedy, hx]

/-- A repeated class whose continuation rejects every character of the class takes
the whole run and never gives back. -/
theorem run_star_char_of_reject {p : Char → Bool}
    (hk : ∀ d : Cursor, d.rest.head?.any p → k d = none) (c : Cursor) :
    run (.star (.char p)) k c = k (c.skip p) := by
  obtain ⟨passed, s, gs⟩ := c
  induction s generalizing passed with
  | nil => simp [run_star_char_nil, Cursor.skip]
  | cons x xs ih =>
    rw [run_star_char_cons]
    by_cases hx : p x
    · rw [if_pos hx, ih, hk ⟨passed, x :: xs, gs⟩ (by simp [hx])]
      simp [Cursor.skip, hx]
    · simp [hx, Cursor.skip]

/-- When the continuation accepts after the whole run, that is the match. -/
theorem run_star_char_of_some {p : Char → Bool} {c d : Cursor} (h : k (c.skip p) = some d) :
    run (.star (.char p)) k c = some d := by
  obtain ⟨passed, s, gs⟩ := c
  induction s generalizing passed with
  | nil => simpa [run_star_char_nil, Cursor.skip] using h
  | cons x xs ih =>
    rw [run_star_char_cons]
    by_cases hx : p x
    · rw [if_pos hx, ih (x :: passed) (by simpa [Cursor.skip, hx] using h)]
      rfl
    · simpa [hx, Cursor.skip] using h

end BitcoinRpcOperator.Backtracking
