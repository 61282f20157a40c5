import BitcoinRpcOperator.CommandLinePasses

/-!
# The ends of tokens

What stands at the end of a token decides whether a pass reaches over the space behind it.
Where a token has been hidden in part, nothing new comes to stand at its end.
-/

namespace BitcoinRpcOperator.Redaction
open Text Backtracking PythonValues

/-- `x` stands at the end of `s`, not right behind a character of `inside`. -/
def AtEnd (inside : Char → Bool) (x s : Str) : Prop :=
  ∃ front, s = front ++ x ∧ front.getLast?.any inside = false

/-- What hiding cannot bring to the end of a text. -/
structure IsEnd (x : Str) : Prop where
  ne : x ≠ []
  chars : ∀ c ∈ x, isKeyChar c
  ne_redacted : x ≠ redacted
  not_masked : ∀ y c, isMark c → x ≠ y ++ c :: redacted

/-- A text with something hidden at its end. -/
def MaskedEnd (s : Str) : Prop := ∃ y c, isMark c ∧ s = y ++ c :: redacted

/-- A switch behind other text. -/
def IsSwitch (x : Str) : Prop := x.head? = some '-' ∧ 2 ≤ x.length ∧ ∀ c ∈ x, isNameChar c

/-- A sensitive key with its separator. -/
def IsSensitiveKey (x : Str) : Prop :=
  x.head?.any isLetter ∧ x.getLast?.any isSep ∧ (∀ c ∈ x.dropLast, isNameChar c) ∧ keyIsSensitive x.dropLast

/-- A credential keyword, with a separator or without. -/
def IsAnnouncement (x : Str) : Prop := IsKeyword x ∨ x.getLast?.any isSep ∧ IsKeyword x.dropLast

instance : DecidablePred IsSwitch := fun _ => inferInstanceAs (Decidable (_ ∧ _ ∧ _))

instance : DecidablePred IsSensitiveKey := fun _ => inferInstanceAs (Decidable (_ ∧ _ ∧ _ ∧ _))

instance : DecidablePred IsAnnouncement := fun _ => inferInstanceAs (Decidable (_ ∨ _ ∧ _))

theorem getLast?_cons_of_ne {c : Char} {s : Str} (hs : s ≠ []) : (c :: s).getLast? = s.getLast? := by
  rw [List.getLast?_cons, List.getLast?_eq_some_getLast hs]
  rfl

section
variable {inside : Char → Bool} {s s' x : Str}

/-- A text of characters of keys has not been changed, unless it is hidden at its end. -/
theorem Edit.same_of_keyChars (h : Edit s s') (hs : ∀ c ∈ s', isKeyChar c)
    (hshown : ∀ y c, isMark c → s' ≠ y ++ c :: redacted) : s = s' := by
  induction h with
  | nil => rfl
  | @keep c s s' _ ih =>
    rw [List.forall_mem_cons] at hs
    rw [ih hs.2 fun y d hd hy => hshown (c :: y) d hd (by rw [hy]; rfl)]
  | @mask c u s s' hc hnext h _ =>
    rw [List.forall_mem_cons, List.forall_mem_append] at hs
    obtain rfl : s' = [] := by
      cases s' with
      | nil => rfl
      | cons y s' =>
        have hy : isKeyChar y = false := by
          rw [← h.head_eq] at hnext
          exact hnext
        exact absurd (hs.2.2 y (by simp)) (by simp [hy])
    exact absurd (by simp) (hshown [] c hc)

theorem redacted_names : ∀ c ∈ redacted, isNameChar c := by decide

theorem MaskedEnd.nothing_atEnd (hinside : ∀ c, isNameChar c → inside c) (h : MaskedEnd s) (hx : IsEnd x) :
    ¬ AtEnd inside x s := by
  obtain ⟨y, c, hc, rfl⟩ := h
  rintro ⟨front, hsplit, hfront⟩
  rcases List.append_eq_append_iff.1 hsplit with ⟨r, rfl, hend⟩ | ⟨r, -, rfl⟩
  · cases r with
    | nil => exact hx.not_masked [] c hc hend.symm
    | cons d r =>
      obtain ⟨rfl, hletters⟩ := List.cons.inj hend
      by_cases hr : r = []
      · subst hr
        exact hx.ne_redacted hletters.symm
      · obtain ⟨r, z, rfl⟩ := (List.eq_nil_or_concat r).resolve_left hr
        have hz : inside z := hinside z (redacted_names z (by rw [show redacted = _ from hletters]; simp))
        have hlast : (y ++ c :: r.concat z).getLast? = some z := by
          rw [List.getLast?_append_of_ne_nil _ (List.cons_ne_nil _ _), getLast?_cons_of_ne hr, List.concat_eq_append,
            List.getLast?_concat]
        rw [hlast, Option.any_some, hz] at hfront
        cases hfront
  · exact hx.not_masked r c hc rfl

/-- What stands at the end of a text in which something has been hidden stood there before,
unless the end has been hidden itself. -/
theorem Edit.front (hinside : ∀ c, isNameChar c → inside c) (h : Edit s s') (hx : IsEnd x) {front : Str}
    (hs' : s' = front ++ x) (hfront : front.getLast?.any inside = false) :
    ∃ front', s = front' ++ x ∧ front'.getLast? = front.getLast? := by
  induction h generalizing front with
  | nil => exact absurd (List.append_eq_nil_iff.1 hs'.symm).2 hx.ne
  | @keep c s s' h ih =>
    cases front with
    | nil =>
      rw [List.nil_append] at hs'
      refine ⟨[], ?_, rfl⟩
      rw [List.nil_append, ← hs', h.same_of_keyChars]
      · intro y hy
        exact hx.chars y (by rw [← hs']; simp [hy])
      · intro y d hd hy
        exact hx.not_masked (c :: y) d hd (by rw [← hs', hy]; rfl)
    | cons d front =>
      obtain ⟨rfl, rfl⟩ := List.cons.inj hs'
      by_cases hfirst : front = []
      · subst hfirst
        refine ⟨[c], ?_, rfl⟩
        rw [h.same_of_keyChars (by simpa using hx.chars) (by simpa using hx.not_masked)]
        rfl
      · rw [getLast?_cons_of_ne hfirst] at hfront ⊢
        obtain ⟨front', rfl, hfront'⟩ := ih rfl hfront
        refine ⟨c :: front', rfl, ?_⟩
        rw [← hfront', getLast?_cons_of_ne]
        rintro rfl
        exact hfirst (List.getLast?_eq_none_iff.1 hfront'.symm)
  | @mask c u s s' hc hnext h ih =>
    have hletters : ∀ y ∈ redacted, inside y := fun y hy => hinside y (redacted_names y hy)
    rcases List.append_eq_append_iff.1 (show (c :: redacted) ++ s' = front ++ x from hs') with
      ⟨w, rfl, rfl⟩ | ⟨w, hw, rfl⟩
    · have hwne : w ≠ [] := by
        rintro rfl
        rw [List.append_nil, getLast?_cons_of_ne (by decide), show redacted.getLast? = some 'D' by decide] at hfront
        rw [Option.any_some, hletters 'D' (by decide)] at hfront
        cases hfront
      rw [List.getLast?_append_of_ne_nil _ hwne] at hfront ⊢
      obtain ⟨front', rfl, hfront'⟩ := ih rfl hfront
      have hfront'ne : front' ≠ [] := by
        rintro rfl
        exact hwne (List.getLast?_eq_none_iff.1 hfront'.symm)
      refine ⟨c :: u ++ front', by simp, ?_⟩
      rw [List.getLast?_append_of_ne_nil _ hfront'ne, hfront']
    · -- What is hidden stands before no character of a key, so it is at the end of the text.
      obtain rfl : s' = [] := by
        cases s' with
        | nil => rfl
        | cons y s' =>
          have hy : isKeyChar y = false := by
            rw [← h.head_eq] at hnext
            exact hnext
          exact absurd (hx.chars y (by simp)) (by simp [hy])
      exact absurd ⟨front, hw, hfront⟩ (MaskedEnd.nothing_atEnd hinside ⟨[], c, hc, rfl⟩
        (by simpa using hx))

theorem AtEnd.of_edit (hinside : ∀ c, isNameChar c → inside c) (hx : IsEnd x) (h : Edit s s')
    (hs' : AtEnd inside x s') : AtEnd inside x s := by
  obtain ⟨front, rfl, hfront⟩ := hs'
  obtain ⟨front', rfl, hlast⟩ := h.front hinside hx rfl hfront
  exact ⟨front', rfl, by rw [hlast, hfront]⟩

/-- What a pass makes of a token, with the space before it. -/
theorem edit_onPart {p : Pass} {value : Char → Bool} (hm : Masks value p.pattern p.replace)
    (hadvances : Advances p.pattern) (hnew : p.new = redacted) (htakes : ∀ c, isKeyChar c → p.takes c)
    {c : Option Bool} (hs : IsToken s) : Edit (' ' :: s) (' ' :: p.onPart c s) := by
  have hrest := edit_rest hm hadvances (c := c) hs
  rcases c with _ | _ | _
  · exact .keep hrest
  · have hsplit := p.take_front (some false) s
    have hedit := hrest.append_left (' ' :: p.front (some false) s)
    rwa [List.cons_append, hsplit] at hedit
  · have hnext : (p.rest (some true) s).head?.any isKeyChar = false := next_of_value htakes (head_dropWhile _ _)
    have hedit := Edit.mask (c := ' ') (u := p.front (some true) s) (by decide) hnext hrest
    rw [p.take_front (some true) s] at hedit
    rw [Pass.onPart, Pass.put, hnew]
    exact hedit

theorem AtEnd.of_onPart (hinside : ∀ c, isNameChar c → inside c) (hspace : inside ' ' = false) (hx : IsEnd x)
    {p : Pass} {value : Char → Bool} (hm : Masks value p.pattern p.replace) (hadvances : Advances p.pattern)
    (hnew : p.new = redacted) (htakes : ∀ c, isKeyChar c → p.takes c) {c : Option Bool} (hs : IsToken s)
    (h : AtEnd inside x (p.onPart c s)) : AtEnd inside x s := by
  obtain ⟨front, hsplit, hfront⟩ := h
  have hbehind : (' ' :: front).getLast?.any inside = false := by
    by_cases hfirst : front = []
    · rw [hfirst]
      exact hspace
    · rw [getLast?_cons_of_ne hfirst, hfront]
  obtain ⟨front', hs', hlast⟩ := (edit_onPart hm hadvances hnew htakes (c := c) hs).front hinside hx
    (congrArg (List.cons ' ') hsplit) hbehind
  cases front' with
  | nil => exact absurd (List.getLast?_eq_none_iff.1 hlast.symm) (List.cons_ne_nil _ _)
  | cons y front' =>
    obtain ⟨rfl, rfl⟩ := List.cons.inj hs'
    refine ⟨front', rfl, ?_⟩
    by_cases hfirst : front' = []
    · rw [hfirst]
      rfl
    · rw [← getLast?_cons_of_ne (c := ' ') hfirst, hlast, hbehind]

theorem isMark_not_name {c : Char} (h : isMark c) : isNameChar c = false := by
  by_contra hname
  obtain ⟨hspace, hsep, -, -, -, hslash⟩ := isNameChar_cases (by simpa using hname)
  simp [isMark, hspace, hsep, hslash] at h

theorem IsSwitch.isEnd (h : IsSwitch x) : IsEnd x := by
  obtain ⟨hhead, hlength, hnames⟩ := h
  refine ⟨?_, fun c hc => by simp [isKeyChar, hnames c hc], ?_, ?_⟩
  · rintro rfl
    cases hhead
  · rintro rfl
    exact absurd hhead (by decide)
  · rintro y c hc rfl
    have hname := hnames c (by simp)
    rw [isMark_not_name hc] at hname
    cases hname

/-- What ends in a separator is not hidden at its end. -/
theorem isEnd_of_sep {key : Str} {sep : Char} (hkey : ∀ c ∈ key, isNameChar c) (hsep : isSep sep) :
    IsEnd (key ++ [sep]) := by
  have hlast : ∀ y, key ++ [sep] ≠ y ++ redacted := by
    intro y hy
    have hD : (key ++ [sep]).getLast? = some 'D' := by
      rw [hy, List.getLast?_append_of_ne_nil _ (by decide)]
      decide
    obtain rfl : sep = 'D' := by simpa using hD
    exact absurd hsep (by decide)
  refine ⟨by simp, ?_, hlast [], fun y c _ hy => hlast (y ++ [c]) (by rw [hy]; simp)⟩
  rw [List.forall_mem_append, List.forall_mem_singleton]
  exact ⟨fun c hc => by simp [isKeyChar, hkey c hc], by simp [isKeyChar, hsep]⟩

theorem dropLast_of_sep (h : x.getLast?.any isSep) : ∃ sep, isSep sep ∧ x = x.dropLast ++ [sep] := by
  cases hlast : x.getLast? with
  | none => simp [hlast] at h
  | some sep =>
    refine ⟨sep, by simpa [hlast] using h, ?_⟩
    exact (List.dropLast_append_getLast? sep hlast).symm

theorem IsSensitiveKey.isEnd (h : IsSensitiveKey x) : IsEnd x := by
  obtain ⟨-, hsep, hnames, -⟩ := h
  obtain ⟨sep, hsep, hx⟩ := dropLast_of_sep hsep
  rw [hx]
  exact isEnd_of_sep hnames hsep

theorem IsKeyword.names {w : Str} (h : IsKeyword w) (hw : ∀ c ∈ w, isSpace c = false) : ∀ c ∈ w, isNameChar c :=
  @keyword_in_tokens w w [] [] hw nofun h rfl

theorem IsAnnouncement.isEnd (h : IsAnnouncement x) (hx : ∀ c ∈ x, isSpace c = false) : IsEnd x := by
  rcases h with h | ⟨hsep, h⟩
  · have hnames := h.names hx
    obtain ⟨v, hv, hspells⟩ := h
    refine ⟨?_, fun c hc => by simp [isKeyChar, hnames c hc], ?_, ?_⟩
    · rintro rfl
      have hempty : ∀ v ∈ ["password", "secret", "token", "credential", "cookie", "rpcauth", "rpcuser",
          "private key"], ¬ Spells v [] := by decide
      exact hempty v hv hspells
    · rintro rfl
      have hredacted : ∀ v ∈ ["password", "secret", "token", "credential", "cookie", "rpcauth", "rpcuser",
          "private key"], ¬ Spells v redacted := by decide
      exact hredacted v hv hspells
    · rintro y c hc rfl
      have hname := hnames c (by simp)
      rw [isMark_not_name hc] at hname
      cases hname
  · obtain ⟨sep, hsep, hsplit⟩ := dropLast_of_sep hsep
    rw [hsplit]
    exact isEnd_of_sep (h.names fun c hc => hx c (List.dropLast_subset x hc)) hsep

end

/-- `s` ends in a text with `p`, not right behind a character of `inside`. -/
def EndsIn (inside : Char → Bool) (p : Str → Prop) (s : Str) : Prop := ∃ x, p x ∧ AtEnd inside x s

instance (inside : Char → Bool) (p : Str → Prop) [DecidablePred p] : DecidablePred (EndsIn inside p) := fun s =>
  decidable_of_iff (∃ i ≤ s.length, p (s.drop i) ∧ (s.take i).getLast?.any inside = false) (by
    constructor
    · rintro ⟨i, -, hp, hfront⟩
      exact ⟨_, hp, s.take i, (List.take_append_drop i s).symm, hfront⟩
    · rintro ⟨x, hp, front, rfl, hfront⟩
      exact ⟨front.length, by simp, by simpa using hp, by simpa using hfront⟩)

/-- What announces a credential at the end of a token. -/
def Announces (s : Str) : Prop := EndsIn isNameChar IsSensitiveKey s ∨ EndsIn isNameChar IsAnnouncement s

instance : DecidablePred Announces := fun _ => inferInstanceAs (Decidable (_ ∨ _))

section
variable {e : Str → Prop} {s s' : Str}

theorem EndsIn.of_edit (he : ∀ x, e x → (∀ c ∈ x, isSpace c = false) → IsEnd x) (h : Edit s s') (hs : IsToken s)
    (hend : EndsIn isNameChar e s') : EndsIn isNameChar e s := by
  obtain ⟨x, hx, front, rfl, hfront⟩ := hend
  have hspace : ∀ c ∈ x, isSpace c = false := fun c hc => (isToken_edit h hs).no_space c (by simp [hc])
  exact ⟨x, hx, AtEnd.of_edit (fun _ hc => hc) (he x hx hspace) h ⟨front, rfl, hfront⟩⟩

theorem EndsIn.of_onPart (he : ∀ x, e x → (∀ c ∈ x, isSpace c = false) → IsEnd x) {p : Pass} {value : Char → Bool}
    (hm : Masks value p.pattern p.replace) (hadvances : Advances p.pattern) (hnew : p.new = redacted)
    (htakes : ∀ c, isKeyChar c → p.takes c) {c : Option Bool} (hs : IsToken s)
    (hend : EndsIn isNameChar e (p.onPart c s)) : EndsIn isNameChar e s := by
  obtain ⟨x, hx, front, hsplit, hfront⟩ := hend
  have htoken : IsToken (p.onPart c s) :=
    hs.onPart hm hadvances hnew ⟨htakes '-' (by decide), htakes 'R' (by decide)⟩
  have hspace : ∀ c ∈ x, isSpace c = false := fun c hc => htoken.no_space c (by rw [hsplit]; simp [hc])
  exact ⟨x, hx, AtEnd.of_onPart (fun _ hc => hc) (by decide) (he x hx hspace) hm hadvances hnew htakes hs
    ⟨front, hsplit, hfront⟩⟩

theorem MaskedEnd.not_endsIn (he : ∀ x, e x → (∀ c ∈ x, isSpace c = false) → IsEnd x) (h : MaskedEnd s)
    (hs : IsToken s) : ¬ EndsIn isNameChar e s := by
  rintro ⟨x, hx, front, rfl, hfront⟩
  have hspace : ∀ c ∈ x, isSpace c = false := fun c hc => hs.no_space c (by simp [hc])
  exact h.nothing_atEnd (fun _ hc => hc) (he x hx hspace) ⟨front, rfl, hfront⟩

theorem Announces.of_edit (h : Edit s s') (hs : IsToken s) (hend : Announces s') : Announces s :=
  hend.imp (EndsIn.of_edit (fun _ hx _ => hx.isEnd) h hs) (EndsIn.of_edit (fun _ hx => hx.isEnd) h hs)

theorem Announces.of_onPart {p : Pass} {value : Char → Bool} (hm : Masks value p.pattern p.replace)
    (hadvances : Advances p.pattern) (hnew : p.new = redacted) (htakes : ∀ c, isKeyChar c → p.takes c)
    {c : Option Bool} (hs : IsToken s) (hend : Announces (p.onPart c s)) : Announces s :=
  hend.imp (EndsIn.of_onPart (fun _ hx _ => hx.isEnd) hm hadvances hnew htakes hs)
    (EndsIn.of_onPart (fun _ hx => hx.isEnd) hm hadvances hnew htakes hs)

theorem MaskedEnd.not_announces (h : MaskedEnd s) (hs : IsToken s) : ¬ Announces s := by
  rintro (hend | hend)
  · exact h.not_endsIn (fun _ hx _ => hx.isEnd) hs hend
  · exact h.not_endsIn (fun _ hx => hx.isEnd) hs hend

end

section
variable {lib : Library} {s : Str} {ss : List Str} {c : Option Bool} {b : Bool}

/-- A pass over options reaches over the end of a token that ends in a switch. -/
theorem flag_carry (hs : IsToken s) (hss : ∀ t ∈ ss, IsToken t) (h : flagPass.carry ' ' c s ss = some b) :
    EndsIn isNameChar IsSwitch s := by
  obtain ⟨s₁, s₂, a, d, rfl, hmatch, hsplit, hless, -⟩ := Pass.carry_some h
  obtain ⟨dash, name, t, ss', rfl, hdash, hne, hname, hbehind, -⟩ := flag_crosses
    (fun x hx => hs.no_space x (by simp [hx])) (fun x hx => (hs.chars x (by simp [hx])).2) hss hmatch hsplit hless
  refine ⟨dash ++ name, ⟨?_, ?_, flag_names hdash hname⟩, s₁, rfl, by simpa using hbehind⟩
  · rcases hdash with rfl | rfl <;> rfl
  · have hlength := List.length_pos_iff.2 hne
    rcases hdash with rfl | rfl
    · simp
      omega
    · simp

/-- An assignment that hides something of the next token has its key at the end of a token. -/
theorem assignment_carry (hs : IsToken s) (hss : ∀ t ∈ ss, IsToken t)
    (h : assignmentPass.carry ' ' c s ss = some true) : EndsIn isNameChar IsSensitiveKey s := by
  obtain ⟨s₁, s₂, a, d, rfl, hmatch, hsplit, hless, hhides⟩ := Pass.carry_some h
  obtain ⟨x, key, sep, t, ss', rfl, hx, hkey, hsep, hbehind, -, -, h₁, -⟩ := assignment_crosses
    (fun x hx => hs.no_space x (by simp [hx])) (fun x hx => (hs.chars x (by simp [hx])).2) hss hmatch hsplit hless
  have hsensitive : keyIsSensitive (x :: key) := by
    rw [← h₁]
    exact hhides
  refine ⟨x :: key ++ [sep], ⟨by simpa using hx, ?_, ?_, ?_⟩, s₁, rfl, by simpa using hbehind⟩
  · rw [List.getLast?_concat]
    exact hsep
  · rw [List.dropLast_concat, List.forall_mem_cons]
    exact ⟨isLetter_isNameChar hx, hkey⟩
  · rw [List.dropLast_concat]
    exact hsensitive

theorem keyword_carry (hs : IsToken s) (hss : ∀ t ∈ ss, IsToken t)
    (h : (keywordPass lib).carry ' ' c s ss = some b) : EndsIn isNameChar IsAnnouncement s := by
  obtain ⟨s₁, s₂, a, d, rfl, hmatch, hsplit, hless, -⟩ := Pass.carry_some h
  obtain ⟨w, sep, t, ss', rfl, hw, hnames, hsep, hbehind, -⟩ := keyword_crosses
    (fun x hx => hs.no_space x (by simp [hx])) hss hmatch hsplit
  refine ⟨w ++ sep, ?_, s₁, rfl, by simpa using hbehind⟩
  rcases hsep with rfl | ⟨x, rfl, hx⟩
  · exact .inl (by simpa using hw)
  · exact .inr ⟨by simpa using hx, by simpa using hw⟩

end

end BitcoinRpcOperator.Redaction
