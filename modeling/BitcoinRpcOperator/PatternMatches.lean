import BitcoinRpcOperator.Backtracking

/-!
# What a pattern matches

The matches of a pattern without the order in which they are tried, of which the matcher
returns one, and the course of a substitution from left to right.
-/

namespace BitcoinRpcOperator.Backtracking
open Text

/-- A match of the pattern leads from one place to the other. -/
def Matches : Pattern → Cursor → Cursor → Prop
  | .empty, c, d => d = c
  | .char p, c, d => ∃ x s, c.rest = x :: s ∧ p x ∧ d = ⟨x :: c.passed, s, c.groups⟩
  | .seq r s, c, d => ∃ m, Matches r c m ∧ Matches s m d
  | .alt r s, c, d => Matches r c d ∨ Matches s c d
  | .star r, c, d => Relation.ReflTransGen (Matches r) c d
  | .group i r, c, d => ∃ m, Matches r c m ∧ d = ⟨m.passed, m.rest, (i, c.textTo m) :: m.groups⟩
  | .notAfter p, c, d => c.passed.head?.any p = false ∧ d = c
  | .boundary word, c, d => c.passed.head?.any word ≠ c.rest.head?.any word ∧ d = c
  | .textStart, c, d => c.passed = [] ∧ d = c
  | .lineStart, c, d => c.passed.head?.all (· == '\n') ∧ d = c
  | .lineEnd, c, d => c.rest.head?.all (· == '\n') ∧ d = c

section
variable {k : Continuation} {c d : Cursor}

theorem repeatGreedy_sound {r : Pattern}
    (hr : ∀ {k : Continuation} {c d : Cursor}, run r k c = some d → ∃ m, Matches r c m ∧ k m = some d)
    (n : ℕ) (h : repeatGreedy (run r) k n c = some d) :
    ∃ m, Relation.ReflTransGen (Matches r) c m ∧ k m = some d := by
  induction n generalizing c with
  | zero => exact ⟨c, .refl, h⟩
  | succ n ih =>
    rw [repeatGreedy, Option.or_eq_some_iff] at h
    rcases h with h | ⟨-, h⟩
    · obtain ⟨m, hm, hk⟩ := hr h
      split_ifs at hk
      obtain ⟨m', hm', hk'⟩ := ih hk
      exact ⟨m', .head hm hm', hk'⟩
    · exact ⟨c, .refl, h⟩

/-- The matcher goes on from the end of a match. -/
theorem run_sound : ∀ (r : Pattern) {k : Continuation} {c d : Cursor}, run r k c = some d →
    ∃ m, Matches r c m ∧ k m = some d
  | .empty, k, c, d, h => ⟨c, rfl, h⟩
  | .char p, k, ⟨passed, [], gs⟩, d, h => by cases h
  | .char p, k, ⟨passed, x :: s, gs⟩, d, h => by
    rw [run_char_cons] at h
    split_ifs at h with hx
    exact ⟨_, ⟨x, s, rfl, hx, rfl⟩, h⟩
  | .seq r s, k, c, d, h => by
    obtain ⟨m, hm, h⟩ := run_sound r (by simpa using h)
    obtain ⟨m', hm', h⟩ := run_sound s h
    exact ⟨m', ⟨m, hm, hm'⟩, h⟩
  | .alt r s, k, c, d, h => by
    rw [run_alt, Option.or_eq_some_iff] at h
    rcases h with h | ⟨-, h⟩
    · obtain ⟨m, hm, h⟩ := run_sound r h
      exact ⟨m, .inl hm, h⟩
    · obtain ⟨m, hm, h⟩ := run_sound s h
      exact ⟨m, .inr hm, h⟩
  | .star r, k, c, d, h => repeatGreedy_sound (fun h => run_sound r h) _ h
  | .group i r, k, c, d, h => by
    obtain ⟨m, hm, h⟩ := run_sound r (by simpa using h)
    exact ⟨_, ⟨m, hm, rfl⟩, h⟩
  | .notAfter p, k, c, d, h => by
    rw [run] at h
    split_ifs at h with hp
    exact ⟨c, ⟨by simpa using hp, rfl⟩, h⟩
  | .boundary word, k, c, d, h => by
    rw [run] at h
    split_ifs at h with hp
    exact ⟨c, ⟨by simpa using hp, rfl⟩, h⟩
  | .textStart, k, c, d, h => by
    rw [run] at h
    split_ifs at h with hp
    exact ⟨c, ⟨by simpa using hp, rfl⟩, h⟩
  | .lineStart, k, c, d, h => by
    rw [run] at h
    split_ifs at h with hp
    exact ⟨c, ⟨hp, rfl⟩, h⟩
  | .lineEnd, k, c, d, h => by
    rw [run] at h
    split_ifs at h with hp
    exact ⟨c, ⟨hp, rfl⟩, h⟩

theorem matchAt_sound {r : Pattern} (h : matchAt r c = some d) : Matches r c d := by
  obtain ⟨m, hm, hk⟩ := run_sound r h
  obtain rfl := Option.some.inj hk
  exact hm

/-- `d` is `c` moved past the text `a`. -/
def Cursor.Moved (c : Cursor) (a : Str) (d : Cursor) : Prop :=
  c.rest = a ++ d.rest ∧ d.passed = a.reverse ++ c.passed

theorem Cursor.Moved.refl (c : Cursor) : c.Moved [] c := ⟨rfl, rfl⟩

theorem Cursor.Moved.trans {a b : Str} {m : Cursor} (h : c.Moved a m) (h' : m.Moved b d) :
    c.Moved (a ++ b) d := by
  obtain ⟨hrest, hpassed⟩ := h
  obtain ⟨hrest', hpassed'⟩ := h'
  constructor
  · rw [hrest, hrest', List.append_assoc]
  · rw [hpassed', hpassed, List.reverse_append, List.append_assoc]

theorem Cursor.Moved.textTo {a : Str} (h : c.Moved a d) : c.textTo d = a := by
  rw [Cursor.textTo, h.1, List.length_append, Nat.add_sub_cancel, List.take_left']
  rfl

theorem matches_opt {r : Pattern} : Matches r.opt c d ↔ Matches r c d ∨ d = c := Iff.rfl

theorem matches_char {p : Char → Bool} (h : Matches (.char p) c d) :
    ∃ x, p x ∧ c.Moved [x] d ∧ d.groups = c.groups := by
  obtain ⟨x, s, hrest, hx, rfl⟩ := h
  exact ⟨x, hx, ⟨hrest, rfl⟩, rfl⟩

theorem matches_star_char {p : Char → Bool} (h : Matches (.star (.char p)) c d) :
    ∃ a, (∀ x ∈ a, p x) ∧ c.Moved a d ∧ d.groups = c.groups := by
  induction h with
  | refl => exact ⟨[], nofun, .refl c, rfl⟩
  | tail _ hstep ih =>
    obtain ⟨a, ha, hmoved, hgroups⟩ := ih
    obtain ⟨x, hx, hmoved', hgroups'⟩ := matches_char hstep
    refine ⟨a ++ [x], ?_, hmoved.trans hmoved', hgroups'.trans hgroups⟩
    simpa [or_imp, forall_and] using ⟨ha, hx⟩

theorem matches_plus_char {p : Char → Bool} (h : Matches (.plus (.char p)) c d) :
    ∃ a, a ≠ [] ∧ (∀ x ∈ a, p x) ∧ c.Moved a d ∧ d.groups = c.groups := by
  obtain ⟨m, hm, hd⟩ := h
  obtain ⟨x, hx, hmoved, hgroups⟩ := matches_char hm
  obtain ⟨a, ha, hmoved', hgroups'⟩ := matches_star_char hd
  refine ⟨x :: a, List.cons_ne_nil _ _, ?_, hmoved.trans hmoved', hgroups'.trans hgroups⟩
  simpa using ⟨hx, ha⟩

theorem matches_opt_char {p : Char → Bool} (h : Matches (.opt (.char p)) c d) :
    ∃ a : Str, a.length ≤ 1 ∧ (∀ x ∈ a, p x) ∧ c.Moved a d ∧ d.groups = c.groups := by
  rcases h with h | rfl
  · obtain ⟨x, hx, hmoved, hgroups⟩ := matches_char h
    exact ⟨[x], by simp, by simpa using hx, hmoved, hgroups⟩
  · exact ⟨[], by simp, nofun, .refl _, rfl⟩

theorem matches_lit {x : Char} (h : Matches (.lit x) c d) : c.Moved [x] d ∧ d.groups = c.groups := by
  obtain ⟨y, hy, hmoved, hgroups⟩ := matches_char h
  obtain rfl := eq_of_beq hy
  exact ⟨hmoved, hgroups⟩

theorem matches_text {s : Str} (h : Matches (.text s) c d) : c.Moved s d ∧ d.groups = c.groups := by
  induction s generalizing c with
  | nil =>
    obtain rfl := h
    exact ⟨.refl _, rfl⟩
  | cons x s ih =>
    obtain ⟨m, hm, hrest⟩ := h
    obtain ⟨hmoved, hgroups⟩ := matches_lit hm
    obtain ⟨hmoved', hgroups'⟩ := ih hrest
    exact ⟨hmoved.trans hmoved', hgroups'.trans hgroups⟩

theorem matches_group {i : ℕ} {r : Pattern} (h : Matches (.group i r) c d) :
    ∃ m, Matches r c m ∧ ∀ a, c.Moved a m → c.Moved a d ∧ d.groups = (i, a) :: m.groups := by
  obtain ⟨m, hm, rfl⟩ := h
  exact ⟨m, hm, fun a ha => ⟨ha, by rw [ha.textTo]⟩⟩

theorem run_seqs_sound {r : Pattern} {rs : List Pattern}
    (h : run (.seqs (r :: rs)) k c = some d) :
    ∃ m, Matches r c m ∧ run (.seqs rs) k m = some d := run_sound r h

theorem run_seqs_notAfter {p : Char → Bool} {rs : List Pattern}
    (h : run (.seqs (.notAfter p :: rs)) k c = some d) :
    c.passed.head?.any p = false ∧ run (.seqs rs) k c = some d := by
  obtain ⟨m, ⟨hp, hm⟩, h⟩ := run_seqs_sound h
  exact ⟨hp, hm ▸ h⟩

/-- A repeated class at the end of a pattern takes all that it can. -/
theorem run_star_last {p : Char → Bool} (hk : ∀ m, ∃ d, k m = some d)
    (h : run (.star (.char p)) k c = some d) :
    ∃ u tail, c.rest = u ++ tail ∧ (∀ x ∈ u, p x) ∧ tail.head?.any p = false ∧
      k ⟨u.reverse ++ c.passed, tail, c.groups⟩ = some d := by
  obtain ⟨e, he⟩ := hk (c.skip p)
  rw [run_star_char_of_some he] at h
  obtain rfl := Option.some.inj h
  refine ⟨c.rest.takeWhile p, c.rest.dropWhile p, List.takeWhile_append_dropWhile.symm,
    fun x hx => List.mem_takeWhile_imp hx, ?_, he⟩
  cases hdrop : c.rest.dropWhile p with
  | nil => rfl
  | cons y t =>
    have hne : c.rest.dropWhile p ≠ [] := by simp [hdrop]
    have hnot := List.head_dropWhile_not p hne
    simpa [hdrop] using hnot

theorem run_plus_last {p : Char → Bool} (hk : ∀ m, ∃ d, k m = some d)
    (h : run (.plus (.char p)) k c = some d) :
    ∃ u tail, c.rest = u ++ tail ∧ u ≠ [] ∧ (∀ x ∈ u, p x) ∧ tail.head?.any p = false ∧
      k ⟨u.reverse ++ c.passed, tail, c.groups⟩ = some d := by
  obtain ⟨passed, s, gs⟩ := c
  cases s with
  | nil => cases h
  | cons x s =>
    rw [run_plus, run_char_cons] at h
    split_ifs at h with hx
    obtain ⟨u, tail, hrest, hu, htail, hd⟩ := run_star_last hk h
    refine ⟨x :: u, tail, congrArg (x :: ·) hrest, List.cons_ne_nil _ _, ?_, htail, ?_⟩
    · simpa using ⟨hx, hu⟩
    · simpa using hd

/-- A match moves forward. -/
theorem matches_moved : ∀ (r : Pattern) {c d : Cursor}, Matches r c d → ∃ a, c.Moved a d
  | .empty, c, d, h => by
    obtain rfl := h
    exact ⟨[], .refl _⟩
  | .char p, c, d, h => by
    obtain ⟨x, -, hmoved, -⟩ := matches_char h
    exact ⟨[x], hmoved⟩
  | .seq r s, c, d, ⟨m, hr, hs⟩ => by
    obtain ⟨a, ha⟩ := matches_moved r hr
    obtain ⟨b, hb⟩ := matches_moved s hs
    exact ⟨a ++ b, ha.trans hb⟩
  | .alt r s, c, d, h => h.elim (fun h => matches_moved r h) fun h => matches_moved s h
  | .star r, c, d, h => by
    induction h with
    | refl => exact ⟨[], .refl _⟩
    | tail _ hstep ih =>
      obtain ⟨a, ha⟩ := ih
      obtain ⟨b, hb⟩ := matches_moved r hstep
      exact ⟨a ++ b, ha.trans hb⟩
  | .group i r, c, d, ⟨m, hm, hd⟩ => by
    obtain ⟨a, ha⟩ := matches_moved r hm
    subst hd
    exact ⟨a, ha⟩
  | .notAfter p, c, d, h => ⟨[], by rw [h.2]; exact .refl _⟩
  | .boundary word, c, d, h => ⟨[], by rw [h.2]; exact .refl _⟩
  | .textStart, c, d, h => ⟨[], by rw [h.2]; exact .refl _⟩
  | .lineStart, c, d, h => ⟨[], by rw [h.2]; exact .refl _⟩
  | .lineEnd, c, d, h => ⟨[], by rw [h.2]; exact .refl _⟩

end

/-- A group captures a piece of the text that lay ahead. -/
theorem matches_groups : ∀ (r : Pattern) {c d : Cursor}, Matches r c d →
    ∀ g ∈ d.groups, g ∈ c.groups ∨ g.2 <:+: c.rest
  | .empty, c, d, h, g, hg => by
    obtain rfl := h
    exact .inl hg
  | .char p, c, d, h, g, hg => by
    obtain ⟨x, -, -, hgroups⟩ := matches_char h
    rw [hgroups] at hg
    exact .inl hg
  | .seq r s, c, d, ⟨m, hr, hs⟩, g, hg => by
    obtain ⟨a, hrest, -⟩ := matches_moved r hr
    rcases matches_groups s hs g hg with hg | hg
    · exact matches_groups r hr g hg
    · rw [hrest]
      exact .inr (hg.trans (List.suffix_append a _).isInfix)
  | .alt r s, c, d, h, g, hg =>
    h.elim (fun h => matches_groups r h g hg) fun h => matches_groups s h g hg
  | .star r, c, d, h, g, hg => by
    induction h using Relation.ReflTransGen.head_induction_on with
    | refl => exact .inl hg
    | head hstep _ ih =>
      obtain ⟨a, hrest, -⟩ := matches_moved r hstep
      rcases ih with hg | hg
      · exact matches_groups r hstep g hg
      · rw [hrest]
        exact .inr (hg.trans (List.suffix_append a _).isInfix)
  | .group i r, c, d, ⟨m, hm, hd⟩, g, hg => by
    subst hd
    rcases List.mem_cons.1 hg with rfl | hg
    · exact .inr (List.take_prefix _ _).isInfix
    · exact matches_groups r hm g hg
  | .notAfter p, c, d, h, g, hg | .boundary word, c, d, h, g, hg | .textStart, c, d, h, g, hg
  | .lineStart, c, d, h, g, hg | .lineEnd, c, d, h, g, hg => by
    rw [h.2] at hg
    exact .inl hg

theorem captured_within {r : Pattern} {passed s : Str} {d : Cursor} (h : matchAt r ⟨passed, s, []⟩ = some d)
    (i : ℕ) : d.captured i <:+: s := by
  rw [Cursor.captured]
  cases hlookup : d.groups.lookup i with
  | none => exact List.nil_infix
  | some t =>
    have hmem : (i, t) ∈ d.groups := by
      obtain ⟨l₁, l₂, heq, -⟩ := List.lookup_eq_some_iff.1 hlookup
      simp [heq]
    exact (matches_groups r (matchAt_sound h) _ hmem).resolve_left List.not_mem_nil

/-- Substitution with `passed` behind makes `out` of a text: characters at which there is no
match stay, and a match is replaced. -/
inductive Substitutes (r : Pattern) (f : Str → Cursor → Str) : Str → Str → Str → Prop
  | done {passed : Str} : matchAt r ⟨passed, [], []⟩ = none → Substitutes r f passed [] []
  | skip {passed s out : Str} {x : Char} : matchAt r ⟨passed, x :: s, []⟩ = none →
      Substitutes r f (x :: passed) s out → Substitutes r f passed (x :: s) (x :: out)
  | hit {passed a s out : Str} {d : Cursor} : matchAt r ⟨passed, a ++ s, []⟩ = some d → a ≠ [] →
      d.rest = s → Substitutes r f d.passed s out →
      Substitutes r f passed (a ++ s) (f a d ++ out)

theorem Substitutes.subFuel_eq {r : Pattern} {f : Str → Cursor → Str} {passed s out : Str}
    (h : Substitutes r f passed s out) : ∀ n, s.length < n → subFuel r f n passed s = out := by
  induction h with
  | @done passed hnone =>
    intro n hn
    cases n with
    | zero => cases hn
    | succ n => simp only [subFuel, hnone]
  | @skip passed s out x hnone _ ih =>
    intro n hn
    cases n with
    | zero => cases hn
    | succ n => simp only [subFuel, hnone, ih n (by rw [List.length_cons] at hn; omega)]
  | @hit passed a s out d hsome hne hrest _ ih =>
    intro n hn
    cases n with
    | zero => cases hn
    | succ n =>
      obtain ⟨x, a, rfl⟩ := List.exists_cons_of_ne_nil hne
      have hlength : d.rest.length < (x :: (a ++ s)).length := by
        rw [hrest, List.length_cons, List.length_append]
        omega
      have htake : (x :: (a ++ s)).take ((x :: (a ++ s)).length - d.rest.length) = x :: a := by
        rw [hrest, ← List.cons_append, List.length_append, Nat.add_sub_cancel, List.take_left']
        rfl
      have hstep := ih n (by simp only [List.length_append, List.length_cons] at hn; omega)
      rw [List.cons_append] at hsome hn ⊢
      simp only [subFuel, hsome]
      rw [if_pos hlength, htake, hrest, hstep]

theorem Substitutes.sub_eq {r : Pattern} {f : Str → Cursor → Str} {s out : Str}
    (h : Substitutes r f [] s out) : sub r f s = out :=
  h.subFuel_eq _ (Nat.lt_succ_self _)

/-- The pattern accepts no separator, and sees no difference between a separator and the end
of the text. -/
def Narrow (sep : Char) : Pattern → Prop
  | .empty => True
  | .char p => p sep = false
  | .seq r s => Narrow sep r ∧ Narrow sep s
  | .alt r s => Narrow sep r ∧ Narrow sep s
  | .star r => Narrow sep r
  | .group _ r => Narrow sep r
  | .notAfter p => p sep = false
  | .boundary word => word sep = false
  | .textStart | .lineStart | .lineEnd => False

/-- What stands behind or ahead of a part of a text. -/
def Outside (sep : Char) (s : Str) : Prop := s = [] ∨ ∃ t, s = sep :: t

/-- A place in a part, seen in the whole text. -/
def Cursor.within (behind ahead : Str) (c : Cursor) : Cursor :=
  ⟨c.passed ++ behind, c.rest ++ ahead, c.groups⟩

section
variable {sep : Char} {behind ahead : Str}

theorem head?_any_outside {p : Char → Bool} (hp : p sep = false) (hs : Outside sep ahead) (s : Str) :
    (s ++ ahead).head?.any p = s.head?.any p := by
  cases s with
  | cons x s => rfl
  | nil =>
    rcases hs with rfl | ⟨t, rfl⟩
    · rfl
    · simp [hp]

theorem textTo_within (c d : Cursor) :
    (c.within behind ahead).textTo (d.within behind ahead) = c.textTo d := by
  have hsub : (c.rest ++ ahead).length - (d.rest ++ ahead).length = c.rest.length - d.rest.length := by
    simp only [List.length_append]
    omega
  simp only [Cursor.textTo, Cursor.within, hsub]
  rw [List.take_append_of_le_length (by omega)]

/-- More rounds than characters change nothing. -/
theorem repeatGreedy_rounds (r : Pattern) {k : Continuation} {n m : ℕ} {c : Cursor}
    (hn : c.rest.length ≤ n) (hm : c.rest.length ≤ m) :
    repeatGreedy (run r) k n c = repeatGreedy (run r) k m c := by
  -- Without characters left, a further round cannot move on.
  have hempty : ∀ c : Cursor, c.rest.length = 0 → ∀ n, repeatGreedy (run r) k n c = k c := by
    intro c hc n
    cases n with
    | zero => rfl
    | succ n =>
      rw [repeatGreedy]
      cases hrun : run r (fun c' => if c'.rest.length < c.rest.length then
          repeatGreedy (run r) k n c' else none) c with
      | none => rfl
      | some d =>
        obtain ⟨m, -, hm⟩ := run_sound r hrun
        rw [if_neg (by omega)] at hm
        cases hm
  induction n generalizing m c with
  | zero => rw [hempty c (by omega), hempty c (by omega)]
  | succ n ih =>
    cases m with
    | zero => rw [hempty c (by omega), hempty c (by omega)]
    | succ m =>
      have hsame : (fun c' : Cursor => if c'.rest.length < c.rest.length then
            repeatGreedy (run r) k n c' else none) =
          fun c' => if c'.rest.length < c.rest.length then repeatGreedy (run r) k m c' else none := by
        funext c'
        by_cases hless : c'.rest.length < c.rest.length
        · rw [if_pos hless, if_pos hless]
          exact ih (by omega) (by omega)
        · rw [if_neg hless, if_neg hless]
      rw [repeatGreedy, repeatGreedy, hsame]

theorem repeatGreedy_within {body body' : Continuation → Continuation} {k k' : Continuation}
    (hbody : ∀ k k' : Continuation, (∀ c, k' (c.within behind ahead) = (k c).map (·.within behind ahead)) →
      ∀ c, body' k' (c.within behind ahead) = (body k c).map (·.within behind ahead))
    (hk : ∀ c, k' (c.within behind ahead) = (k c).map (·.within behind ahead)) (n : ℕ) (c : Cursor) :
    repeatGreedy body' k' n (c.within behind ahead) =
      (repeatGreedy body k n c).map (·.within behind ahead) := by
  induction n generalizing c with
  | zero => exact hk c
  | succ n ih =>
    rw [repeatGreedy, repeatGreedy, hk c, Option.map_or]
    congr 1
    refine hbody _ _ (fun d => ?_) c
    have hless : (d.within behind ahead).rest.length < (c.within behind ahead).rest.length ↔
        d.rest.length < c.rest.length := by
      simp only [Cursor.within, List.length_append]
      omega
    by_cases h : d.rest.length < c.rest.length
    · rw [if_pos h, if_pos (hless.2 h), ih d]
    · rw [if_neg h, if_neg (fun h' => h (hless.1 h'))]
      rfl

/-- A narrow pattern runs in a part as it runs in the whole text. -/
theorem run_within (hbehind : Outside sep behind) (hahead : Outside sep ahead) :
    ∀ (r : Pattern), Narrow sep r → ∀ {k k' : Continuation},
      (∀ c, k' (c.within behind ahead) = (k c).map (·.within behind ahead)) →
      ∀ c, run r k' (c.within behind ahead) = (run r k c).map (·.within behind ahead)
  | .empty, _, k, k', hk, c => hk c
  | .char p, hp, k, k', hk, ⟨passed, [], gs⟩ => by
    rcases hahead with rfl | ⟨t, rfl⟩
    · rfl
    · have hnot : p sep = false := hp
      simp [Cursor.within, hnot]
  | .char p, _, k, k', hk, ⟨passed, x :: s, gs⟩ => by
    have hstep := hk ⟨x :: passed, s, gs⟩
    simp only [Cursor.within, List.cons_append, run_char_cons] at hstep ⊢
    by_cases hx : p x
    · rw [if_pos hx, if_pos hx]
      exact hstep
    · rw [if_neg hx, if_neg hx]
      rfl
  | .seq r s, h, k, k', hk, c => by
    rw [run_seq, run_seq]
    exact run_within hbehind hahead r h.1 (run_within hbehind hahead s h.2 hk) c
  | .alt r s, h, k, k', hk, c => by
    rw [run_alt, run_alt, Option.map_or, run_within hbehind hahead r h.1 hk c,
      run_within hbehind hahead s h.2 hk c]
  | .star r, h, k, k', hk, c => by
    have hlength : c.rest.length ≤ (c.within behind ahead).rest.length := by simp [Cursor.within]
    rw [run, run, repeatGreedy_rounds r le_rfl hlength]
    exact repeatGreedy_within (fun _ _ hk => run_within hbehind hahead r h hk) hk _ c
  | .group i r, h, k, k', hk, c => by
    rw [run_group, run_group]
    refine run_within hbehind hahead r h (fun d => ?_) c
    have hstep := hk ⟨d.passed, d.rest, (i, c.textTo d) :: d.groups⟩
    rw [textTo_within]
    exact hstep
  | .notAfter p, h, k, k', hk, c => by
    have hsame : (c.within behind ahead).passed.head?.any p = c.passed.head?.any p :=
      head?_any_outside h hbehind c.passed
    rw [run, run, hsame]
    split_ifs
    · rfl
    · exact hk c
  | .boundary word, h, k, k', hk, c => by
    have hsame : (c.within behind ahead).passed.head?.any word = c.passed.head?.any word :=
      head?_any_outside h hbehind c.passed
    have hsame' : (c.within behind ahead).rest.head?.any word = c.rest.head?.any word :=
      head?_any_outside h hahead c.rest
    rw [run, run, hsame, hsame']
    split_ifs
    · exact hk c
    · rfl

/-- A narrow pattern matches in a part as it matches in the whole text. -/
theorem matchAt_within {r : Pattern} (hr : Narrow sep r) (hbehind : Outside sep behind)
    (hahead : Outside sep ahead) (c : Cursor) :
    matchAt r (c.within behind ahead) = (matchAt r c).map (·.within behind ahead) :=
  run_within hbehind hahead r hr (fun _ => rfl) c

/-- A match moves past what it leaves out. -/
theorem moved_of_rest {r : Pattern} {c d : Cursor} {a : Str} (h : matchAt r c = some d)
    (hrest : c.rest = a ++ d.rest) : c.Moved a d := by
  obtain ⟨b, hb⟩ := matches_moved r (matchAt_sound h)
  obtain rfl : b = a := List.append_cancel_right (hb.1.symm.trans hrest)
  exact hb

section
variable {r : Pattern} {f : Str → Cursor → Str}

/-- A text in which no match starts stays. -/
theorem Substitutes.keeps_front {a s passed out : Str}
    (ha : ∀ front x back, a = front ++ x :: back →
      matchAt r ⟨front.reverse ++ passed, x :: back ++ s, []⟩ = none)
    (h : Substitutes r f (a.reverse ++ passed) s out) :
    Substitutes r f passed (a ++ s) (a ++ out) := by
  induction a generalizing passed with
  | nil => exact h
  | cons x a ih =>
    refine .skip (ha [] x a rfl) (ih (fun front y back heq => ?_) ?_)
    · have hnone := ha (x :: front) y back (by rw [heq]; rfl)
      simpa using hnone
    · simpa using h

/-- A substitution that replaces every match by itself changes nothing. -/
theorem Substitutes.same {passed s out : Str}
    (h : Substitutes r f passed s out) (hsame : ∀ {passed t d}, t <:+ s →
      matchAt r ⟨passed, t, []⟩ = some d → ∀ a, f a d = a) : out = s := by
  induction h with
  | done => rfl
  | skip _ _ ih => rw [ih fun ht => hsame (ht.trans (List.suffix_cons _ _))]
  | @hit passed a s out d hmatch _ _ _ ih =>
    rw [hsame List.suffix_rfl hmatch a, ih fun ht => hsame (ht.trans (List.suffix_append _ _))]

end

def Pattern.consumes : Pattern → Bool
  | .char _ => true
  | .seq r s => r.consumes || s.consumes
  | .alt r s => r.consumes && s.consumes
  | .group _ r => r.consumes
  | _ => false

theorem matches_consumes : ∀ (r : Pattern) {c d : Cursor}, r.consumes → Matches r c d →
    d.rest.length < c.rest.length
  | .char p, c, d, _, h => by
    obtain ⟨x, s, hrest, -, rfl⟩ := h
    rw [hrest]
    exact Nat.lt_succ_self _
  | .seq r s, c, d, hr, ⟨m, hm, hd⟩ => by
    obtain ⟨a, ha⟩ := matches_moved r hm
    obtain ⟨b, hb⟩ := matches_moved s hd
    have hfirst := congrArg List.length ha.1
    have hsecond := congrArg List.length hb.1
    rw [List.length_append] at hfirst hsecond
    rcases Bool.or_eq_true _ _ ▸ hr with hr | hs
    · have hless := matches_consumes r hr hm
      omega
    · have hless := matches_consumes s hs hd
      omega
  | .alt r s, c, d, hrs, h => by
    obtain ⟨hr, hs⟩ := Bool.and_eq_true _ _ ▸ hrs
    exact h.elim (fun h => matches_consumes r hr h) fun h => matches_consumes s hs h
  | .group i r, c, d, hr, ⟨m, hm, hd⟩ => by
    have hless := matches_consumes r hr hm
    rw [hd]
    exact hless
  | .empty, _, _, h, _ | .star _, _, _, h, _ | .notAfter _, _, _, h, _ | .boundary _, _, _, h, _
  | .textStart, _, _, h, _ | .lineStart, _, _, h, _ | .lineEnd, _, _, h, _ => by cases h

/-- A match moves forward. -/
def Advances (r : Pattern) : Prop := ∀ c d, matchAt r c = some d → d.rest.length < c.rest.length

theorem advances_of_consumes {r : Pattern} (hr : r.consumes) : Advances r :=
  fun _ _ h => matches_consumes r hr (matchAt_sound h)

theorem Advances.at_end {r : Pattern} (hr : Advances r) (passed : Str) :
    matchAt r ⟨passed, [], []⟩ = none := by
  cases h : matchAt r ⟨passed, [], []⟩ with
  | none => rfl
  | some d => exact absurd (hr _ _ h) (Nat.not_lt_zero _)

/-- A substitution runs its course. -/
theorem substitutes_subFuel {r : Pattern} (hr : Advances r) (f : Str → Cursor → Str) (n : ℕ)
    {passed s : Str} (hn : s.length < n) : Substitutes r f passed s (subFuel r f n passed s) := by
  induction n generalizing passed s with
  | zero => cases hn
  | succ n ih =>
    cases s with
    | nil =>
      simp only [subFuel, hr.at_end]
      exact .done (hr.at_end passed)
    | cons x s =>
      rw [List.length_cons] at hn
      cases hmatch : matchAt r ⟨passed, x :: s, []⟩ with
      | none =>
        simp only [subFuel, hmatch]
        exact .skip hmatch (ih (by omega))
      | some d =>
        have hless := hr _ _ hmatch
        obtain ⟨a, hmoved⟩ := matches_moved r (matchAt_sound hmatch)
        have hsplit : x :: s = a ++ d.rest := hmoved.1
        have hne : a ≠ [] := by
          rintro rfl
          rw [hsplit] at hless
          exact lt_irrefl _ hless
        have htake : (x :: s).take ((x :: s).length - d.rest.length) = a := by
          rw [hsplit, List.length_append, Nat.add_sub_cancel, List.take_left']
          rfl
        have hroom : d.rest.length < n := by
          rw [List.length_cons] at hless
          omega
        simp only [subFuel, hmatch]
        rw [if_pos hless, htake]
        rw [hsplit] at hmatch ⊢
        exact .hit hmatch hne rfl (ih hroom)

theorem substitutes_subFrom {r : Pattern} (hr : Advances r) (f : Str → Cursor → Str)
    (passed s : Str) : Substitutes r f passed s (subFrom r f passed s) :=
  substitutes_subFuel hr f _ (Nat.lt_succ_self _)

variable {r : Pattern} {f : Str → Cursor → Str}

/-- The course of a substitution in a part is its course in the whole text. -/
theorem Substitutes.within (hr : Narrow sep r) (hf : ∀ a d, f a (d.within behind ahead) = f a d)
    (hbehind : Outside sep behind) (hahead : Outside sep ahead) {passed s out outAhead : Str}
    (h : Substitutes r f passed s out)
    (hrest : ∀ passed', Substitutes r f (passed' ++ behind) ahead outAhead) :
    Substitutes r f (passed ++ behind) (s ++ ahead) (out ++ outAhead) := by
  induction h with
  | @done passed _ => exact hrest passed
  | @skip passed s out x hnone _ ih =>
    have hmatch := matchAt_within hr hbehind hahead ⟨passed, x :: s, []⟩
    rw [hnone] at hmatch
    exact .skip hmatch ih
  | @hit passed a s out d hsome hne hd _ ih =>
    have hmatch := matchAt_within hr hbehind hahead ⟨passed, a ++ s, []⟩
    rw [hsome] at hmatch
    rw [List.append_assoc, List.append_assoc, ← hf a d]
    refine .hit ?_ hne ?_ ih
    · rw [← List.append_assoc]
      exact hmatch
    · simp only [Cursor.within, hd]

/-- A substitution by a narrow pattern acts on the parts of a text between separators. -/
theorem sub_separator (hr : Narrow sep r) (hadvances : Advances r)
    (hf : ∀ behind ahead a d, f a (Cursor.within behind ahead d) = f a d) (s t : Str) :
    sub r f (s ++ sep :: t) = sub r f s ++ sep :: sub r f t := by
  have hnext : Outside sep (sep :: t) := .inr ⟨t, rfl⟩
  have ht : ∀ passed, Substitutes r f (passed ++ []) (sep :: t) (sep :: sub r f t) := by
    intro passed
    have hmatch : matchAt r ⟨passed ++ [], sep :: t, []⟩ = _ :=
      matchAt_within hr (.inl rfl) hnext ⟨passed, [], []⟩
    rw [hadvances.at_end] at hmatch
    refine .skip hmatch ?_
    have hbehind : Outside sep (sep :: (passed ++ [])) := .inr ⟨_, rfl⟩
    have hend : ∀ passed', Substitutes r f (passed' ++ sep :: (passed ++ [])) [] [] :=
      fun passed' => .done (hadvances.at_end _)
    have hpart := (substitutes_subFrom hadvances f [] t).within hr (hf _ _) hbehind (.inl rfl) hend
    simpa only [List.append_nil, List.nil_append, sub] using hpart
  exact ((substitutes_subFrom hadvances f [] s).within hr (hf _ _) (.inl rfl) hnext ht).sub_eq

end

/-- Whether every repetition is of a pattern that takes a character. -/
def Pattern.progressive : Pattern → Bool
  | .seq r s => r.progressive && s.progressive
  | .alt r s => r.progressive && s.progressive
  | .star r => r.consumes && r.progressive
  | .group _ r => r.progressive
  | _ => true

section
variable {k : Continuation} {c d : Cursor}

theorem repeatGreedy_isSome {r : Pattern} (hconsumes : r.consumes)
    (hr : ∀ {k : Continuation} {c m : Cursor}, Matches r c m → (k m).isSome → (run r k c).isSome)
    (h : Relation.ReflTransGen (Matches r) c d) (hk : (k d).isSome) (n : ℕ) (hn : c.rest.length ≤ n) :
    (repeatGreedy (run r) k n c).isSome := by
  induction h using Relation.ReflTransGen.head_induction_on generalizing n with
  | refl =>
    cases n with
    | zero => exact hk
    | succ n => simp [repeatGreedy, hk]
  | @head c m hstep _ ih =>
    have hless := matches_consumes r hconsumes hstep
    cases n with
    | zero => omega
    | succ n =>
      have hfirst := hr (k := fun c' => if c'.rest.length < c.rest.length then
        repeatGreedy (run r) k n c' else none) hstep (by
          rw [if_pos hless]
          exact ih n (by omega))
      rw [repeatGreedy, Option.isSome_or, hfirst, Bool.true_or]

/-- Where there is a match from which one can go on, the matcher comes to an end. -/
theorem run_isSome : ∀ (r : Pattern), r.progressive → ∀ {k : Continuation} {c d : Cursor},
    Matches r c d → (k d).isSome → (run r k c).isSome
  | .empty, _, k, c, d, h, hk => by
    obtain rfl := h
    exact hk
  | .char p, _, k, c, d, h, hk => by
    obtain ⟨passed, rest, gs⟩ := c
    obtain ⟨x, s, hrest, hx, rfl⟩ := h
    obtain rfl : rest = x :: s := hrest
    rw [run_char_cons, if_pos hx]
    exact hk
  | .seq r s, hrs, k, c, d, ⟨m, hm, hd⟩, hk => by
    obtain ⟨hr, hs⟩ := Bool.and_eq_true _ _ ▸ hrs
    exact run_isSome r hr hm (run_isSome s hs hd hk)
  | .alt r s, hrs, k, c, d, h, hk => by
    obtain ⟨hr, hs⟩ := Bool.and_eq_true _ _ ▸ hrs
    rw [run_alt, Option.isSome_or, Bool.or_eq_true]
    exact h.imp (fun h => run_isSome r hr h hk) fun h => run_isSome s hs h hk
  | .star r, hr, k, c, d, h, hk => by
    obtain ⟨hconsumes, hr⟩ := Bool.and_eq_true _ _ ▸ hr
    exact repeatGreedy_isSome hconsumes (run_isSome r hr) h hk _ le_rfl
  | .group i r, hr, k, c, d, ⟨m, hm, hd⟩, hk => by
    subst hd
    exact run_isSome r hr hm hk
  | .notAfter p, _, k, c, d, ⟨hp, hd⟩, hk => by
    subst hd
    rw [run, hp]
    exact hk
  | .boundary word, _, k, c, d, ⟨hp, hd⟩, hk => by
    subst hd
    rw [run, if_pos (by simpa using hp)]
    exact hk
  | .textStart, _, k, c, d, ⟨hp, hd⟩, hk => by
    subst hd
    rw [run, hp]
    exact hk
  | .lineStart, _, k, c, d, ⟨hp, hd⟩, hk => by
    subst hd
    rw [run, if_pos hp]
    exact hk
  | .lineEnd, _, k, c, d, ⟨hp, hd⟩, hk => by
    subst hd
    rw [run, if_pos hp]
    exact hk

theorem matchAt_isSome {r : Pattern} (hr : r.progressive) (h : Matches r c d) : ∃ e, matchAt r c = some e :=
  Option.isSome_iff_exists.1 (run_isSome r hr h rfl)

/-- A run of characters of a class. -/
theorem matches_star_run {p : Char → Bool} {a : Str} (ha : ∀ x ∈ a, p x) (passed s : Str)
    (gs : List (ℕ × Str)) :
    Matches (.star (.char p)) ⟨passed, a ++ s, gs⟩ ⟨a.reverse ++ passed, s, gs⟩ := by
  induction a generalizing passed with
  | nil => exact .refl
  | cons x a ih =>
    rw [List.forall_mem_cons] at ha
    rw [List.reverse_cons, List.append_assoc]
    exact .head ⟨x, a ++ s, rfl, ha.1, rfl⟩ (ih ha.2 (x :: passed))

theorem matches_plus_run {p : Char → Bool} {a : Str} (hne : a ≠ []) (ha : ∀ x ∈ a, p x) (passed s : Str)
    (gs : List (ℕ × Str)) :
    Matches (.plus (.char p)) ⟨passed, a ++ s, gs⟩ ⟨a.reverse ++ passed, s, gs⟩ := by
  obtain ⟨x, a, rfl⟩ := List.exists_cons_of_ne_nil hne
  rw [List.forall_mem_cons] at ha
  refine ⟨_, ⟨x, a ++ s, rfl, ha.1, rfl⟩, ?_⟩
  simpa using matches_star_run ha.2 (x :: passed) s gs

/-- A literal text is matched where it stands. -/
theorem matches_text_run (w passed s : Str) (gs : List (ℕ × Str)) :
    Matches (.text w) ⟨passed, w ++ s, gs⟩ ⟨w.reverse ++ passed, s, gs⟩ := by
  induction w generalizing passed with
  | nil => exact rfl
  | cons x w ih =>
    rw [List.reverse_cons, List.append_assoc]
    exact ⟨⟨x :: passed, w ++ s, gs⟩, ⟨x, w ++ s, rfl, beq_self_eq_true x, rfl⟩, ih (x :: passed)⟩

/-- A full match takes the whole text, and there is one where the pattern can lead to the end. -/
theorem fullmatch_sound {r : Pattern} {s : Str} (h : fullmatch r s = some d) :
    Matches r ⟨[], s, []⟩ d ∧ d.rest = [] := by
  obtain ⟨m, hm, hend⟩ := run_sound r h
  split_ifs at hend with hempty
  obtain rfl := Option.some.inj hend
  exact ⟨hm, List.isEmpty_iff.1 hempty⟩

theorem fullmatch_isSome {r : Pattern} (hr : r.progressive) {s : Str} (h : Matches r ⟨[], s, []⟩ d)
    (hd : d.rest = []) : ∃ e, fullmatch r s = some e := by
  apply Option.isSome_iff_exists.1
  apply run_isSome r hr h
  simp [hd]

end

end BitcoinRpcOperator.Backtracking
