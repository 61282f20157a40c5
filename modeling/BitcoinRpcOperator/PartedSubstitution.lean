import BitcoinRpcOperator.PatternMatches

/-!
# Substitution over the parts of a text

The parts of a text between separators, and substitutions whose matches may reach from one
part into the next one. In a part, such a substitution does what it does in the part alone,
from where the match that reaches in from the part before has ended.
-/

namespace BitcoinRpcOperator.Backtracking
open Text

/-- Whether the assertions of the pattern see no difference between a separator and the end of
the text. -/
def Pattern.blind (sep : Char) : Pattern → Bool
  | .seq r s => r.blind sep && s.blind sep
  | .alt r s => r.blind sep && s.blind sep
  | .star r => r.blind sep
  | .group _ r => r.blind sep
  | .notAfter p => !p sep
  | .boundary word => !word sep
  | .textStart | .lineStart | .lineEnd => false
  | _ => true

/-- A continuation that never goes back. -/
def Continuation.Forward (k : Continuation) : Prop :=
  ∀ c d, k c = some d → d.rest.length ≤ c.rest.length

theorem forward_some : Continuation.Forward some := by
  intro c d h
  obtain rfl := Option.some.inj h
  exact le_rfl

theorem matches_forward {r : Pattern} {c d : Cursor} (h : Matches r c d) : d.rest.length ≤ c.rest.length := by
  obtain ⟨a, ha⟩ := matches_moved r h
  have hlength := congrArg List.length ha.1
  rw [List.length_append] at hlength
  omega

theorem forward_run (r : Pattern) {k : Continuation} (hk : k.Forward) : Continuation.Forward (run r k) := by
  intro c d h
  obtain ⟨m, hm, hd⟩ := run_sound r h
  exact (hk m d hd).trans (matches_forward hm)

/-- What is found in the part alone, `b`, and in the whole text, `a`: a match that ends in
the part is found in both, and without a match in the text there is none in the part. -/
def Agree (behind ahead : Str) (a b : Option Cursor) : Prop :=
  (∀ d, a = some (d.within behind ahead) → b = some d) ∧ (a = none → b = none)

section
variable {sep : Char} {behind ahead : Str}

theorem Cursor.within_injective : Function.Injective (Cursor.within behind ahead) := by
  rintro ⟨p, s, gs⟩ ⟨p', s', gs'⟩ h
  simp only [Cursor.within, Cursor.mk.injEq, List.append_left_inj] at h
  obtain ⟨rfl, rfl, rfl⟩ := h
  rfl

theorem Agree.or {a a' b b' : Option Cursor} (h : Agree behind ahead a b)
    (h' : Agree behind ahead a' b') : Agree behind ahead (a.or a') (b.or b') := by
  constructor
  · intro d hd
    rcases Option.or_eq_some_iff.1 hd with hd | ⟨hnone, hd⟩
    · rw [h.1 d hd]
      rfl
    · rw [h.2 hnone, h'.1 d hd]
      rfl
  · intro hnone
    obtain ⟨ha, ha'⟩ := Option.or_eq_none_iff.1 hnone
    rw [h.2 ha, h'.2 ha']
    rfl

theorem agree_none : Agree behind ahead none none := ⟨nofun, fun _ => rfl⟩

theorem agree_repeat {body : Continuation → Continuation} {k k' : Continuation} {n : ℕ}
    (hforward : ∀ {k : Continuation}, k.Forward → (body k).Forward)
    (hbody : ∀ {k k' : Continuation}, k'.Forward →
      (∀ c, Agree behind ahead (k' (c.within behind ahead)) (k c)) →
      ∀ c, Agree behind ahead (body k' (c.within behind ahead)) (body k c))
    (hk' : k'.Forward) (hk : ∀ c, Agree behind ahead (k' (c.within behind ahead)) (k c)) :
    (repeatGreedy body k' n).Forward ∧ ∀ c, Agree behind ahead
      (repeatGreedy body k' n (c.within behind ahead)) (repeatGreedy body k n c) := by
  induction n with
  | zero => exact ⟨hk', hk⟩
  | succ n ih =>
    obtain ⟨hn, ih⟩ := ih
    have hround : ∀ c : Cursor, Continuation.Forward fun c' : Cursor =>
        if c'.rest.length < c.rest.length then repeatGreedy body k' n c' else none := by
      intro c c' d h
      by_cases hless : c'.rest.length < c.rest.length
      · exact hn c' d (by simpa only [if_pos hless] using h)
      · simp only [if_neg hless] at h
        cases h
    constructor
    · intro c d h
      rw [repeatGreedy, Option.or_eq_some_iff] at h
      rcases h with h | ⟨-, h⟩
      · exact hforward (hround c) c d h
      · exact hk' c d h
    · intro c
      rw [repeatGreedy, repeatGreedy]
      refine (hbody (hround _) (fun d => ?_) c).or (hk c)
      have hless : (d.within behind ahead).rest.length < (c.within behind ahead).rest.length ↔
          d.rest.length < c.rest.length := by
        simp only [Cursor.within, List.length_append]
        omega
      by_cases h : d.rest.length < c.rest.length
      · rw [if_pos h, if_pos (hless.2 h)]
        exact ih d
      · rw [if_neg h, if_neg (fun h' => h (hless.1 h'))]
        exact agree_none

/-- A run of a pattern in a part agrees with the one in the whole text. -/
theorem agree_run (hbehind : Outside sep behind) (hahead : Outside sep ahead) :
    ∀ (r : Pattern), r.blind sep → ∀ {k k' : Continuation}, k'.Forward →
      (∀ c, Agree behind ahead (k' (c.within behind ahead)) (k c)) →
      ∀ c, Agree behind ahead (run r k' (c.within behind ahead)) (run r k c)
  | .empty, _, k, k', _, hk, c => hk c
  | .char p, _, k, k', hk', _, ⟨passed, [], gs⟩ => by
    -- In the text the pattern may go on where the part is at its end.
    refine ⟨fun d hd => ?_, fun _ => rfl⟩
    cases ahead with
    | nil => cases hd
    | cons x t =>
      simp only [Cursor.within, List.nil_append, run_char_cons] at hd
      split_ifs at hd
      have hlength := hk' _ _ hd
      simp only [List.length_append, List.length_cons] at hlength
      omega
  | .char p, _, k, k', _, hk, ⟨passed, x :: s, gs⟩ => by
    have hstep := hk ⟨x :: passed, s, gs⟩
    simp only [Cursor.within, List.cons_append, run_char_cons] at hstep ⊢
    by_cases hx : p x
    · rw [if_pos hx, if_pos hx]
      exact hstep
    · rw [if_neg hx, if_neg hx]
      exact agree_none
  | .seq r s, hrs, k, k', hk', hk, c => by
    obtain ⟨hr, hs⟩ := Bool.and_eq_true _ _ ▸ hrs
    exact agree_run hbehind hahead r hr (forward_run s hk') (agree_run hbehind hahead s hs hk' hk) c
  | .alt r s, hrs, k, k', hk', hk, c => by
    obtain ⟨hr, hs⟩ := Bool.and_eq_true _ _ ▸ hrs
    exact (agree_run hbehind hahead r hr hk' hk c).or (agree_run hbehind hahead s hs hk' hk c)
  | .star r, h, k, k', hk', hk, c => by
    have hlength : c.rest.length ≤ (c.within behind ahead).rest.length := by simp [Cursor.within]
    rw [run, run, repeatGreedy_rounds r le_rfl hlength]
    exact (agree_repeat (forward_run r) (agree_run hbehind hahead r h) hk' hk).2 c
  | .group i r, h, k, k', hk', hk, c => by
    have hforward : Continuation.Forward fun d =>
        k' ⟨d.passed, d.rest, (i, (c.within behind ahead).textTo d) :: d.groups⟩ :=
      fun d e he => hk' ⟨d.passed, d.rest, (i, (c.within behind ahead).textTo d) :: d.groups⟩ e he
    rw [run_group, run_group]
    refine agree_run hbehind hahead r h hforward (fun d => ?_) c
    have hstep := hk ⟨d.passed, d.rest, (i, c.textTo d) :: d.groups⟩
    rw [textTo_within]
    exact hstep
  | .notAfter p, h, k, k', _, hk, c => by
    have hsame : (c.within behind ahead).passed.head?.any p = c.passed.head?.any p :=
      head?_any_outside (by simpa [Pattern.blind] using h) hbehind c.passed
    rw [run, run, hsame]
    split_ifs
    · exact agree_none
    · exact hk c
  | .boundary word, h, k, k', _, hk, c => by
    have hsame : (c.within behind ahead).passed.head?.any word = c.passed.head?.any word :=
      head?_any_outside (by simpa [Pattern.blind] using h) hbehind c.passed
    have hsame' : (c.within behind ahead).rest.head?.any word = c.rest.head?.any word :=
      head?_any_outside (by simpa [Pattern.blind] using h) hahead c.rest
    rw [run, run, hsame, hsame']
    split_ifs
    · exact hk c
    · exact agree_none

theorem agree_match {r : Pattern} (hr : r.blind sep) (hbehind : Outside sep behind)
    (hahead : Outside sep ahead) (c : Cursor) :
    Agree behind ahead (matchAt r (c.within behind ahead)) (matchAt r c) :=
  agree_run hbehind hahead r hr forward_some
    (fun _ => ⟨fun _ hd => congrArg some (Cursor.within_injective (Option.some.inj hd)), nofun⟩) c

/-- What is behind a part does not count. -/
theorem matchAt_behind {r : Pattern} (hr : r.blind sep) (hbehind : Outside sep behind) (passed s : Str) :
    matchAt r ⟨passed ++ behind, s, []⟩ = (matchAt r ⟨passed, s, []⟩).map (·.within behind []) := by
  have hagree := agree_match hr hbehind (.inl rfl) ⟨passed, s, []⟩
  have hcursor : Cursor.within behind [] ⟨passed, s, []⟩ = ⟨passed ++ behind, s, []⟩ := by
    rw [Cursor.within, List.append_nil]
  rw [hcursor] at hagree
  cases h : matchAt r ⟨passed ++ behind, s, []⟩ with
  | none =>
    rw [hagree.2 h]
    rfl
  | some d =>
    obtain ⟨a, -, hpassed⟩ := matches_moved r (matchAt_sound h)
    have hd : d = Cursor.within behind [] ⟨a.reverse ++ passed, d.rest, d.groups⟩ := by
      rw [Cursor.within, List.append_nil, List.append_assoc, ← hpassed]
    rw [hagree.1 _ (h.trans (congrArg some hd)), Option.map_some, ← hd]

end

/-- The parts after the first one, each behind a separator. -/
def partsAfter (sep : Char) : List Str → Str
  | [] => []
  | t :: ts => sep :: (t ++ partsAfter sep ts)

theorem outside_parts (sep : Char) (ts : List Str) : Outside sep (partsAfter sep ts) := by
  cases ts with
  | nil => exact .inl rfl
  | cons t ts => exact .inr ⟨_, rfl⟩

/-- A substitution whose matches may reach from one part of a text into the next one. -/
structure Pass where
  pattern : Pattern
  replace : Str → Cursor → Str
  /-- The characters of the next part that a match takes which reaches into it. -/
  takes : Char → Bool
  /-- Whether such a match puts `new` in their place. -/
  hides : Cursor → Bool
  new : Str

namespace Pass

section
variable (p : Pass) (sep : Char)

/-- What a match that reaches in from the part before has taken of a part: nothing where there
is none. -/
def front : Option Bool → Str → Str
  | none, _ => []
  | some _, s => s.takeWhile p.takes

def rest : Option Bool → Str → Str
  | none, s => s
  | some _, s => s.dropWhile p.takes

def put : Option Bool → Str → Str
  | some true, _ => p.new
  | carry, s => p.front carry s

def onPart (carry : Option Bool) (s : Str) : Str :=
  p.put carry s ++ subFrom p.pattern p.replace (p.front carry s).reverse (p.rest carry s)

def reachFuel (ahead : Str) : ℕ → Str → Str → Option (Str × Cursor)
  | 0, _, _ => none
  | _ + 1, _, [] => none
  | n + 1, passed, x :: s =>
    match matchAt p.pattern ⟨passed, x :: (s ++ ahead), []⟩ with
    | none => reachFuel ahead n (x :: passed) s
    | some d =>
      if d.rest.length < ahead.length then
        some ((x :: (s ++ ahead)).take ((x :: (s ++ ahead)).length - d.rest.length), d)
      else reachFuel ahead n d.passed (d.rest.take (d.rest.length - ahead.length))

/-- The match in the course of the substitution over a part that reaches over its end into
what is ahead, with its text. -/
def reach (ahead passed s : Str) : Option (Str × Cursor) := p.reachFuel ahead (s.length + 1) passed s

def reachPart (carry : Option Bool) (s : Str) (ss : List Str) : Option (Str × Cursor) :=
  p.reach (partsAfter sep ss) (p.front carry s).reverse (p.rest carry s)

/-- What reaches into the part after `s`. -/
def carry (carry : Option Bool) (s : Str) (ss : List Str) : Option Bool :=
  (p.reachPart sep carry s ss).map fun m => p.hides m.2

/-- What reaches into each of the parts, where `first` reaches into the first one. -/
def carries : Option Bool → List Str → List (Option Bool)
  | _, [] => []
  | first, s :: ss => first :: carries (p.carry sep first s ss) ss

def onParts (first : Option Bool) (ss : List Str) : List Str :=
  List.zipWith p.onPart (p.carries sep first ss) ss

end

/-- What is to hold of a pass so that it does not see what is behind a separator. -/
structure Parted (p : Pass) (sep : Char) : Prop where
  blind : p.pattern.blind sep
  advances : Advances p.pattern
  replace_within : ∀ behind ahead a d, p.replace a (d.within behind ahead) = p.replace a d
  at_sep : ∀ passed s, matchAt p.pattern ⟨passed, sep :: s, []⟩ = none

/-- What is to hold of a pass over parts with `Part`: a match that reaches over the end of a
part takes the end of that part, which is not replaced, and the beginning of the next part. -/
structure Lawful (p : Pass) (sep : Char) (Part : Str → Prop) : Prop extends Parted p sep where
  cross : ∀ {s₁ s₂ ss passed a d}, Part (s₁ ++ s₂) → (∀ t ∈ ss, Part t) →
    matchAt p.pattern ⟨passed, s₂ ++ partsAfter sep ss, []⟩ = some d → s₂ ++ partsAfter sep ss = a ++ d.rest →
    d.rest.length < (partsAfter sep ss).length →
    ∃ t ss', ss = t :: ss' ∧ a = s₂ ++ sep :: t.takeWhile p.takes ∧
      p.replace a d = s₂ ++ sep :: (if p.hides d then p.new else t.takeWhile p.takes) ∧
      ∀ passed, Substitutes p.pattern p.replace passed s₂ s₂

/-- The course of a pass over a part, behind `behind` and `front` and before the parts `ss`, up
to the match that reaches over its end. -/
inductive Course (p : Pass) (sep : Char) (behind : Str) (ss : List Str) :
    Str → Str → Str → Option (Str × Cursor) → Prop
  | done {front out : Str} : Substitutes p.pattern p.replace (front.reverse ++ behind) (partsAfter sep ss) out →
      Course p sep behind ss front [] out none
  | skip {front s out : Str} {x : Char} {m : Option (Str × Cursor)} :
      matchAt p.pattern ⟨front.reverse, x :: s, []⟩ = none →
      Course p sep behind ss (front ++ [x]) s out m → Course p sep behind ss front (x :: s) (x :: out) m
  | inside {front a s out : Str} {d e : Cursor} {m : Option (Str × Cursor)} :
      matchAt p.pattern ⟨front.reverse, a ++ s, []⟩ = some d → a ≠ [] → d.rest = s →
      matchAt p.pattern ⟨front.reverse, a ++ s ++ partsAfter sep ss, []⟩ = some e → e.rest = s ++ partsAfter sep ss →
      Course p sep behind ss (front ++ a) s out m →
      Course p sep behind ss front (a ++ s) (p.replace a d ++ out) m
  | crosses {front s a out : Str} {d : Cursor} :
      matchAt p.pattern ⟨front.reverse, s ++ partsAfter sep ss, []⟩ = some d → s ++ partsAfter sep ss = a ++ d.rest →
      d.rest.length < (partsAfter sep ss).length →
      Substitutes p.pattern p.replace (a.reverse ++ (front.reverse ++ behind)) d.rest out →
      Course p sep behind ss front s (p.replace a d ++ out) (some (a, d))

variable {p : Pass} {sep : Char} {Part : Str → Prop}

/-- A prefix that leaves as much as what is ahead lies in the text before it. -/
theorem split_ahead {u b r ahead : Str} (h : u ++ ahead = b ++ r) (hr : ¬ r.length < ahead.length) :
    ∃ m, u = b ++ m ∧ r = m ++ ahead := by
  rcases List.append_eq_append_iff.1 h with ⟨m, rfl, hahead⟩ | ⟨m, rfl, hr'⟩
  · have hm : m = [] := by
      have hlength := congrArg List.length hahead
      rw [List.length_append] at hlength
      exact List.length_eq_zero_iff.1 (by omega)
    subst hm
    exact ⟨[], by simp, by simpa using hahead.symm⟩
  · exact ⟨m, rfl, hr'⟩

theorem take_ahead (m ahead : Str) : (m ++ ahead).take ((m ++ ahead).length - ahead.length) = m := by
  rw [List.length_append, Nat.add_sub_cancel, List.take_left' rfl]

/-- A substitution takes its course over a part. -/
theorem Parted.course (hp : p.Parted sep) {behind passed text out : Str} {ss : List Str}
    (hbehind : Outside sep behind) (h : Substitutes p.pattern p.replace passed text out)
    {front s : Str} (hpassed : passed = front.reverse ++ behind) (htext : text = s ++ partsAfter sep ss)
    {n : ℕ} (hn : s.length < n) :
    Course p sep behind ss front s out (p.reachFuel (partsAfter sep ss) n front.reverse s) := by
  induction h generalizing front s n with
  | @done passed hnone =>
    subst hpassed
    obtain ⟨rfl, hss⟩ := List.append_eq_nil_iff.1 htext.symm
    obtain ⟨n, rfl⟩ := Nat.exists_eq_add_of_lt hn
    refine .done ?_
    rw [hss]
    exact .done hnone
  | @skip passed text out x hnone hrest ih =>
    subst hpassed
    obtain ⟨n, rfl⟩ : ∃ m, n = m + 1 := ⟨n - 1, by omega⟩
    cases s with
    | nil =>
      refine .done ?_
      rw [List.nil_append] at htext
      rw [← htext]
      exact .skip hnone hrest
    | cons y s =>
      obtain ⟨rfl, htail⟩ := List.cons.inj htext
      obtain rfl : text = s ++ partsAfter sep ss := htail
      have halone := (agree_match hp.blind hbehind (outside_parts sep ss) ⟨front.reverse, x :: s, []⟩).2 hnone
      have hahead : matchAt p.pattern ⟨front.reverse, x :: (s ++ partsAfter sep ss), []⟩ = none := by
        have hmatch := matchAt_behind hp.blind hbehind front.reverse (x :: (s ++ partsAfter sep ss))
        rw [hnone] at hmatch
        exact Option.map_eq_none_iff.1 hmatch.symm
      rw [List.length_cons] at hn
      have hcourse : Course p sep behind ss (front ++ [x]) s out
          (p.reachFuel (partsAfter sep ss) n (front ++ [x]).reverse s) := ih (by simp) rfl (by omega)
      simp only [reachFuel, hahead]
      rw [List.reverse_append] at hcourse
      exact .skip halone hcourse
  | @hit passed a text out d hsome hne hd hrest ih =>
    subst hpassed
    obtain ⟨n, rfl⟩ : ∃ m, n = m + 1 := ⟨n - 1, by omega⟩
    cases s with
    | nil =>
      refine .done ?_
      rw [List.nil_append] at htext
      rw [← htext]
      exact .hit hsome hne hd hrest
    | cons y s =>
      have hmatch := matchAt_behind hp.blind hbehind front.reverse (y :: (s ++ partsAfter sep ss))
      rw [← List.cons_append, ← htext, hsome] at hmatch
      obtain ⟨e, he, hde⟩ := Option.map_eq_some_iff.1 hmatch.symm
      rw [htext, List.cons_append] at he
      have herest : e.rest = text := by
        rw [← hd, ← hde]
        simp [Cursor.within]
      have hmoved : Cursor.Moved ⟨front.reverse, y :: (s ++ partsAfter sep ss), []⟩ a e :=
        moved_of_rest he (by rw [herest, htext]; rfl)
      have hreplace : p.replace a d = p.replace a e := by rw [← hde, hp.replace_within]
      by_cases hless : e.rest.length < (partsAfter sep ss).length
      · have htake :
            (y :: (s ++ partsAfter sep ss)).take ((y :: (s ++ partsAfter sep ss)).length - e.rest.length) = a :=
          hmoved.textTo
        simp only [reachFuel, he, if_pos hless, htake]
        rw [hreplace]
        refine .crosses he (by rw [herest, htext]) hless ?_
        rw [herest]
        have hpassed : d.passed = a.reverse ++ (front.reverse ++ behind) := by
          rw [← hde, Cursor.within, hmoved.2, List.append_assoc]
        rw [hpassed] at hrest
        exact hrest
      · obtain ⟨s', hs, hstext⟩ := split_ahead (u := y :: s) htext.symm (by rwa [herest] at hless)
        have hlength : (s : Str).length + 1 = a.length + s'.length := by
          rw [← List.length_append, ← hs, List.length_cons]
        have hapos := List.length_pos_iff.2 hne
        have halone := (agree_match hp.blind hbehind (outside_parts sep ss) ⟨front.reverse, a ++ s', []⟩).1
          ⟨a.reverse ++ front.reverse, s', e.groups⟩ (by
            rw [Cursor.within, ← hs, ← htext, hsome, ← hde]
            simp only [Cursor.within, hmoved.2, herest, hstext, List.append_nil])
        rw [List.length_cons] at hn
        have hcourse : Course p sep behind ss (front ++ a) s' _
            (p.reachFuel (partsAfter sep ss) n (front ++ a).reverse s') := ih (by
          rw [← hde, Cursor.within, hmoved.2]
          simp) hstext (by omega)
        have htake : e.rest.take (e.rest.length - (partsAfter sep ss).length) = s' := by
          rw [herest, hstext, take_ahead]
        have hpassed : e.passed = (front ++ a).reverse := by rw [hmoved.2, List.reverse_append]
        have hwhole : matchAt p.pattern ⟨front.reverse, a ++ s' ++ partsAfter sep ss, []⟩ = some e := by
          rw [← hs]
          exact he
        simp only [reachFuel, he, if_neg hless, htake]
        rw [hpassed, hs, hreplace, ← hp.replace_within [] [] a e]
        have hcursor : p.replace a (e.within [] []) =
            p.replace a ⟨a.reverse ++ front.reverse, s', e.groups⟩ := by
          have hwithin : Cursor.within behind (partsAfter sep ss) ⟨a.reverse ++ front.reverse, s', e.groups⟩ =
              e.within behind [] := by
            simp only [Cursor.within, hmoved.2, herest, hstext, List.append_nil]
          rw [hp.replace_within, ← hp.replace_within behind [] a e, ← hwithin, hp.replace_within]
        rw [hcursor]
        exact .inside halone hne rfl hwhole (herest.trans hstext) hcourse

/-- What is left behind the beginning of a part. -/
theorem rest_of_taken {taken : Char → Bool} {s t r : Str} {ss : List Str}
    (h : s ++ partsAfter sep (t :: ss) = s ++ sep :: t.takeWhile taken ++ r) :
    r = t.dropWhile taken ++ partsAfter sep ss := by
  have htext : s ++ partsAfter sep (t :: ss) =
      s ++ sep :: t.takeWhile taken ++ (t.dropWhile taken ++ partsAfter sep ss) := by
    rw [partsAfter, List.append_assoc, List.cons_append, ← List.append_assoc (t.takeWhile taken),
      List.takeWhile_append_dropWhile]
  exact List.append_cancel_left (h.symm.trans htext)

section
variable {behind front s out : Str} {ss : List Str} {m : Option (Str × Cursor)}

/-- Without a match that reaches over the end, a part is replaced as it is alone. -/
theorem Course.stays (hp : p.Parted sep) (h : Course p sep behind ss front s out m) (hm : m = none) :
    ∃ o o', Substitutes p.pattern p.replace front.reverse s o ∧
      Substitutes p.pattern p.replace ((front ++ s).reverse ++ behind) (partsAfter sep ss) o' ∧ out = o ++ o' := by
  induction h with
  | @done front out hrest =>
    refine ⟨[], out, .done (hp.advances.at_end _), ?_, rfl⟩
    rw [List.append_nil]
    exact hrest
  | skip hnone _ ih =>
    obtain ⟨o, o', halone, hrest, rfl⟩ := ih hm
    rw [List.reverse_append] at halone
    rw [List.append_assoc] at hrest
    exact ⟨_, o', .skip hnone halone, hrest, rfl⟩
  | @inside front a s out d e m hsome hne hd _ _ _ ih =>
    obtain ⟨o, o', halone, hrest, rfl⟩ := ih hm
    have hpassed : d.passed = (front ++ a).reverse := by
      rw [(moved_of_rest hsome (by rw [hd]) : Cursor.Moved _ a d).2, List.reverse_append]
    rw [← hpassed] at halone
    rw [List.append_assoc] at hrest
    exact ⟨_, o', .hit hsome hne hd halone, hrest, (List.append_assoc _ _ _).symm⟩
  | crosses => cases hm

/-- Where the match that reaches over the end of a part starts, the part before it has been
replaced as it is alone. -/
theorem Course.crossed {a : Str} {d : Cursor} (h : Course p sep behind ss front s out m) (hm : m = some (a, d)) :
    ∃ s₁ s₂ o o', s = s₁ ++ s₂ ∧ matchAt p.pattern ⟨(front ++ s₁).reverse, s₂ ++ partsAfter sep ss, []⟩ = some d ∧
      s₂ ++ partsAfter sep ss = a ++ d.rest ∧ d.rest.length < (partsAfter sep ss).length ∧
      (∀ o₂, Substitutes p.pattern p.replace (front ++ s₁).reverse s₂ o₂ →
        Substitutes p.pattern p.replace front.reverse s (o ++ o₂)) ∧
      Substitutes p.pattern p.replace (a.reverse ++ ((front ++ s₁).reverse ++ behind)) d.rest o' ∧
      out = o ++ (p.replace a d ++ o') := by
  induction h with
  | done => cases hm
  | @skip front s out x m hnone _ ih =>
    obtain ⟨s₁, s₂, o, o', rfl, hsome, hsplit, hless, halone, hrest, rfl⟩ := ih hm
    have hfront : front ++ [x] ++ s₁ = front ++ x :: s₁ := by simp
    rw [hfront] at hsome halone hrest
    rw [show (front ++ [x]).reverse = x :: front.reverse by simp] at halone
    exact ⟨x :: s₁, s₂, x :: o, o', rfl, hsome, hsplit, hless,
      fun o₂ ho₂ => .skip hnone (halone o₂ ho₂), hrest, rfl⟩
  | @inside front b s out e e' m hsome hne he _ _ _ ih =>
    obtain ⟨s₁, s₂, o, o', rfl, hcross, hsplit, hless, halone, hrest, rfl⟩ := ih hm
    have hpassed : e.passed = (front ++ b).reverse := by
      rw [(moved_of_rest hsome (by rw [he]) : Cursor.Moved _ b e).2, List.reverse_append]
    rw [List.append_assoc] at hcross hrest
    rw [← hpassed, List.append_assoc] at halone
    refine ⟨b ++ s₁, s₂, p.replace b e ++ o, o', (List.append_assoc _ _ _).symm, hcross, hsplit, hless,
      fun o₂ ho₂ => ?_, hrest, (List.append_assoc _ _ _).symm⟩
    rw [List.append_assoc]
    exact .hit hsome hne he (halone o₂ ho₂)
  | @crosses front s a' out d' hsome hsplit hless hrest =>
    obtain ⟨rfl, rfl⟩ := Prod.mk.inj (Option.some.inj hm)
    refine ⟨[], s, [], out, rfl, by rwa [List.append_nil], hsplit, hless, fun o₂ ho₂ => ?_,
      by rwa [List.append_nil], rfl⟩
    rw [List.append_nil] at ho₂
    exact ho₂

/-- A match that reaches over the end of a part leaves the part as it is replaced alone. -/
theorem Course.reaches (hp : p.Lawful sep Part) {a : Str} {d : Cursor}
    (h : Course p sep behind ss front s out m) (hm : m = some (a, d)) (hpart : Part (front ++ s))
    (hparts : ∀ t ∈ ss, Part t) :
    ∃ t ss' o o', ss = t :: ss' ∧ Substitutes p.pattern p.replace front.reverse s o ∧
      Substitutes p.pattern p.replace
        ((t.takeWhile p.takes).reverse ++ sep :: ((front ++ s).reverse ++ behind))
        (t.dropWhile p.takes ++ partsAfter sep ss') o' ∧
      out = o ++ sep :: ((if p.hides d then p.new else t.takeWhile p.takes) ++ o') := by
  obtain ⟨s₁, s₂, o, o', rfl, hsome, hsplit, hless, halone, hrest, rfl⟩ := h.crossed hm
  rw [← List.append_assoc] at hpart
  obtain ⟨t, ss', rfl, rfl, hreplace, hstays⟩ := hp.cross hpart hparts hsome hsplit hless
  have hd := rest_of_taken hsplit
  have hpassed : (s₂ ++ sep :: t.takeWhile p.takes).reverse ++ ((front ++ s₁).reverse ++ behind) =
      (t.takeWhile p.takes).reverse ++ sep :: ((front ++ (s₁ ++ s₂)).reverse ++ behind) := by simp
  rw [hd, hpassed] at hrest
  refine ⟨t, ss', o ++ s₂, o', rfl, halone s₂ (hstays _), hrest, ?_⟩
  rw [hreplace, List.append_assoc, List.append_assoc, List.cons_append]

end

theorem take_front (p : Pass) (first : Option Bool) (s : Str) : p.front first s ++ p.rest first s = s := by
  cases first with
  | none => rfl
  | some _ => exact List.takeWhile_append_dropWhile

/-- A separator is passed over. -/
theorem Parted.over_separator (hp : p.Parted sep) {passed s out : Str}
    (h : Substitutes p.pattern p.replace passed (sep :: s) out) :
    ∃ o, Substitutes p.pattern p.replace (sep :: passed) s o ∧ out = sep :: o := by
  generalize htext : sep :: s = text at h
  cases h with
  | done => cases htext
  | skip _ hrest =>
    obtain ⟨rfl, rfl⟩ := List.cons.inj htext
    exact ⟨_, hrest, rfl⟩
  | hit hsome =>
    rw [← htext, hp.at_sep] at hsome
    cases hsome

theorem substitutes_nil {passed out : Str}
    (h : Substitutes p.pattern p.replace passed [] out) : out = [] := by
  generalize htext : ([] : Str) = text at h
  cases h with
  | done => rfl
  | skip => cases htext
  | hit _ hne => exact absurd (List.append_eq_nil_iff.1 htext.symm).1 hne

theorem onParts_cons (p : Pass) (sep : Char) (first : Option Bool) (s : Str) (ss : List Str) :
    p.onParts sep first (s :: ss) = p.onPart first s :: p.onParts sep (p.carry sep first s ss) ss := rfl

theorem onPart_eq {p : Pass} {first : Option Bool} {s o : Str}
    (h : Substitutes p.pattern p.replace (p.front first s).reverse (p.rest first s) o) :
    p.onPart first s = p.put first s ++ o := by
  rw [onPart, subFrom, h.subFuel_eq _ (Nat.lt_succ_self _)]

/-- Over parts, a pass does to each of them what it does to it alone, from where the match that
reaches in from the part before has ended. -/
theorem Lawful.substitutes (hp : p.Lawful sep Part) {first : Option Bool} {behind s out : Str}
    {ss : List Str} (hbehind : Outside sep behind) (hpart : Part s) (hparts : ∀ t ∈ ss, Part t)
    (h : Substitutes p.pattern p.replace ((p.front first s).reverse ++ behind)
      (p.rest first s ++ partsAfter sep ss) out) :
    p.put first s ++ out = p.onPart first s ++ partsAfter sep (p.onParts sep (p.carry sep first s ss) ss) := by
  induction ss generalizing first behind s out with
  | nil =>
    have hcourse := hp.toParted.course hbehind h rfl rfl (Nat.lt_succ_self _)
    cases hm : p.reachPart sep first s [] with
    | none =>
      obtain ⟨o, o', halone, hrest, rfl⟩ := hcourse.stays hp.toParted hm
      rw [substitutes_nil hrest, onPart_eq halone, List.append_nil]
      exact (List.append_nil _).symm
    | some m =>
      obtain ⟨t, ss', -, -, hss, -⟩ := hcourse.reaches hp hm (by rwa [take_front]) hparts
      cases hss
  | cons t ss ih =>
    have hcourse := hp.toParted.course hbehind h rfl rfl (Nat.lt_succ_self _)
    rw [List.forall_mem_cons] at hparts
    cases hm : p.reachPart sep first s (t :: ss) with
    | none =>
      obtain ⟨o, o', halone, hrest, rfl⟩ := hcourse.stays hp.toParted hm
      obtain ⟨o', hnextPart, rfl⟩ := hp.toParted.over_separator hrest
      have hcarry : p.carry sep first s (t :: ss) = none := by rw [carry, hm]; rfl
      rw [hcarry]
      have htail : o' = p.onPart none t ++ partsAfter sep (p.onParts sep (p.carry sep none t ss) ss) :=
        @ih none _ _ _ (.inr ⟨_, rfl⟩) hparts.1 hparts.2 hnextPart
      rw [htail, onPart_eq halone, onParts_cons, partsAfter, List.append_assoc]
    | some m =>
      obtain ⟨t', ss', o, o', hss, halone, hrest, rfl⟩ := hcourse.reaches hp hm (by rwa [take_front])
        (by simpa using hparts)
      obtain ⟨rfl, rfl⟩ := List.cons.inj hss
      have hcarry : p.carry sep first s (t :: ss) = some (p.hides m.2) := by rw [carry, hm]; rfl
      rw [hcarry]
      have htail := @ih (some (p.hides m.2)) _ _ _ (.inr ⟨_, rfl⟩) hparts.1 hparts.2 hrest
      have hput : p.put (some (p.hides m.2)) t =
          if p.hides m.2 then p.new else t.takeWhile p.takes := by
        cases p.hides m.2 <;> rfl
      rw [← hput, htail, onPart_eq halone, onParts_cons, partsAfter, List.append_assoc]

/-- A pass over the parts of a text. -/
theorem Lawful.sub_parts (hp : p.Lawful sep Part) {s : Str} {ss : List Str} (hpart : Part s)
    (hparts : ∀ t ∈ ss, Part t) :
    sub p.pattern p.replace (s ++ partsAfter sep ss) =
      p.onPart none s ++ partsAfter sep (p.onParts sep (p.carry sep none s ss) ss) :=
  @Lawful.substitutes _ _ _ hp none [] _ _ _ (.inl rfl) hpart hparts
    (substitutes_subFrom hp.advances p.replace [] (s ++ partsAfter sep ss))

theorem reachFuel_spec {ahead a : Str} {d : Cursor} (n : ℕ) {passed s : Str}
    (h : p.reachFuel ahead n passed s = some (a, d)) : ∃ s₁ s₂, s = s₁ ++ s₂ ∧
      matchAt p.pattern ⟨s₁.reverse ++ passed, s₂ ++ ahead, []⟩ = some d ∧ s₂ ++ ahead = a ++ d.rest ∧
      d.rest.length < ahead.length := by
  induction n generalizing passed s with
  | zero => cases h
  | succ n ih =>
    cases s with
    | nil => cases h
    | cons x s =>
      rw [reachFuel] at h
      cases hmatch : matchAt p.pattern ⟨passed, x :: (s ++ ahead), []⟩ with
      | none =>
        rw [hmatch] at h
        obtain ⟨s₁, s₂, rfl, hd, hsplit, hless⟩ := ih h
        refine ⟨x :: s₁, s₂, rfl, ?_, hsplit, hless⟩
        rw [List.reverse_cons, List.append_assoc]
        exact hd
      | some e =>
        obtain ⟨b, hmoved⟩ := matches_moved p.pattern (matchAt_sound hmatch)
        have hb : x :: (s ++ ahead) = b ++ e.rest := hmoved.1
        simp only [hmatch] at h
        split_ifs at h with hless
        · obtain ⟨rfl, rfl⟩ := Prod.mk.inj (Option.some.inj h)
          refine ⟨[], x :: s, rfl, hmatch, ?_, hless⟩
          rw [List.cons_append, hb, List.length_append, Nat.add_sub_cancel, List.take_left' rfl]
        · obtain ⟨m, hm, hrest⟩ := split_ahead (u := x :: s) hb hless
          rw [hrest, take_ahead] at h
          obtain ⟨s₁, s₂, rfl, hd, hsplit, hless⟩ := ih h
          refine ⟨b ++ s₁, s₂, by rw [hm, List.append_assoc], ?_, hsplit, hless⟩
          rw [hmoved.2] at hd
          rw [List.reverse_append, List.append_assoc]
          exact hd

/-- What reaches over the end of a part is a match that starts in it. -/
theorem carry_some {first : Option Bool} {s : Str} {ss : List Str} {b : Bool}
    (h : p.carry sep first s ss = some b) : ∃ s₁ s₂ a d, s = s₁ ++ s₂ ∧
      matchAt p.pattern ⟨s₁.reverse, s₂ ++ partsAfter sep ss, []⟩ = some d ∧ s₂ ++ partsAfter sep ss = a ++ d.rest ∧
      d.rest.length < (partsAfter sep ss).length ∧ p.hides d = b := by
  obtain ⟨⟨a, d⟩, hreach, hb⟩ := Option.map_eq_some_iff.1 h
  obtain ⟨s₁, s₂, hs, hmatch, hsplit, hless⟩ := reachFuel_spec _ hreach
  refine ⟨p.front first s ++ s₁, s₂, a, d, ?_, ?_, hsplit, hless, hb⟩
  · rw [List.append_assoc, ← hs, take_front]
  · rw [List.reverse_append]
    exact hmatch

/-- What reaches into a part may take all of it. -/
theorem carry_taken {s : Str} (hs : ∀ x ∈ s, p.takes x) (b : Bool) (ss : List Str) :
    p.carry sep (some b) s ss = none := by
  have hrest : p.rest (some b) s = [] := List.dropWhile_eq_nil_iff.2 hs
  rw [carry, reachPart, hrest]
  rfl

/-- A match at the beginning of a part that takes all of it lets nothing else reach over its end. -/
theorem Parted.carry_whole (hp : p.Parted sep) {s : Str} {ss : List Str} {d : Cursor} (hs : s ≠ [])
    (h : matchAt p.pattern ⟨[], s, []⟩ = some d) (hd : d.rest = [])
    (hinside : ∀ e, matchAt p.pattern ⟨[], s ++ partsAfter sep ss, []⟩ = some e →
      ¬ e.rest.length < (partsAfter sep ss).length) : p.carry sep none s ss = none := by
  obtain ⟨x, s, rfl⟩ := List.exists_cons_of_ne_nil hs
  have hagree := agree_match hp.blind (.inl rfl) (outside_parts sep ss) ⟨[], x :: s, []⟩
  suffices hreach : p.reachPart sep none (x :: s) ss = none by
    rw [carry, hreach]
    rfl
  change p.reachFuel (partsAfter sep ss) (s.length + 1 + 1) [] (x :: s) = none
  rw [reachFuel]
  cases hmatch : matchAt p.pattern ⟨[], x :: (s ++ partsAfter sep ss), []⟩ with
  | none =>
    have hnone := hagree.2 hmatch
    rw [h] at hnone
    cases hnone
  | some e =>
    obtain ⟨b, hmoved⟩ := matches_moved p.pattern (matchAt_sound hmatch)
    obtain ⟨m, -, hrest⟩ := split_ahead (u := x :: s) hmoved.1 (hinside e hmatch)
    have hwithin : Cursor.within [] (partsAfter sep ss) ⟨e.passed, m, e.groups⟩ = e := by
      rw [Cursor.within, List.append_nil, ← hrest]
    have halone := hagree.1 ⟨e.passed, m, e.groups⟩ (hmatch.trans (congrArg some hwithin.symm))
    obtain rfl : m = [] := by
      rw [h] at halone
      rw [← hd, Option.some.inj halone]
    simp only [if_neg (hinside e hmatch)]
    rw [hrest, take_ahead]
    rfl

/-- What reaches over the end of a part is hidden by a match that starts with the part. -/
theorem carry_match {s : Str} {ss : List Str} {d : Cursor} (hs : s ≠ [])
    (h : matchAt p.pattern ⟨[], s ++ partsAfter sep ss, []⟩ = some d)
    (hless : d.rest.length < (partsAfter sep ss).length) :
    p.carry sep none s ss = some (p.hides d) := by
  obtain ⟨x, s, rfl⟩ := List.exists_cons_of_ne_nil hs
  rw [List.cons_append] at h
  obtain ⟨a, hreach⟩ : ∃ a, p.reachPart sep none (x :: s) ss = some (a, d) := by
    change ∃ a, p.reachFuel (partsAfter sep ss) (s.length + 1 + 1) [] (x :: s) = some (a, d)
    simp only [reachFuel, h, if_pos hless]
    exact ⟨_, rfl⟩
  rw [carry, hreach]
  rfl

theorem length_carries (first : Option Bool) (ss : List Str) : (p.carries sep first ss).length = ss.length := by
  induction ss generalizing first with
  | nil => rfl
  | cons s ss ih => rw [carries, List.length_cons, ih, List.length_cons]

theorem length_onParts (first : Option Bool) (ss : List Str) : (p.onParts sep first ss).length = ss.length := by
  rw [onParts, List.length_zipWith, length_carries, min_self]

end Pass

end BitcoinRpcOperator.Backtracking
