import BitcoinRpcOperator.LoopbackPin
import BitcoinRpcOperator.Transducers

/-!
# The loopback pin among quoted options

What systemd makes of the file in general. The text of the operator leaves both readers somewhere when
the tokens of the charm begin; what was read until then, where the readers stand, and what they read
behind the tokens decide what the node gets.
-/

namespace BitcoinRpcOperator.QuotedArguments
open Text ServiceConfiguration SystemdArguments LoopbackPin Transducers

theorem readFile_append (state : FileState) (s t : Str) : readFile state (s ++ t) =
    (run fileStep state s).1 ++ readFile (run fileStep state s).2 t := by
  induction s generalizing state with
  | nil => rfl
  | cons c s ih => rw [List.cons_append, readFile, ih, run, List.append_assoc]

theorem readWords_append (state : WordState) (s t : Str) : readWords state (s ++ t) =
    (run wordStep state s).1 ++ readWords (run wordStep state s).2 t := by
  induction s generalizing state with
  | nil => rfl
  | cons c s ih => rw [List.cons_append, readWords, ih, run, List.append_assoc]

def openKey : FileState → Option Str
  | .preValue k _ | .value k _ _ | .valueEscape k _ | .singleQuote k _ | .doubleQuote k _
  | .doubleQuoteEscape k _ => some k
  | .preKey | .key _ | .comment | .commentEscape => none

/-- The value read so far, with the blanks that are held back. -/
def pending : FileState → Str
  | .preValue _ v | .valueEscape _ v | .singleQuote _ v | .doubleQuote _ v | .doubleQuoteEscape _ v => v
  | .value _ v blanks => v ++ blanks
  | .preKey | .key _ | .comment | .commentEscape => []

/-- The same place, with `u` in front of the value. -/
def behind (u : Str) : FileState → FileState
  | .preValue k v => .preValue k (u ++ v)
  | .value k v blanks => .value k (u ++ v) blanks
  | .valueEscape k v => .valueEscape k (u ++ v)
  | .singleQuote k v => .singleQuote k (u ++ v)
  | .doubleQuote k v => .doubleQuote k (u ++ v)
  | .doubleQuoteEscape k v => .doubleQuoteEscape k (u ++ v)
  | state => state

/-- The place after some bare text, with an empty value. -/
def settled : FileState → FileState
  | .preValue k _ | .value k _ _ => .value k [] []
  | .singleQuote k _ => .singleQuote k []
  | .doubleQuote k _ => .doubleQuote k []
  | state => state

/-- A step either ends the value or goes on with it, whatever stands in front. -/
theorem fileStep_behind {state : FileState} {k : Str} (h : openKey state = some k) (c : Char) :
    ((fileStep state c).1 = [] ∧ openKey (fileStep state c).2 = some k ∧
        ∀ u, fileStep (behind u state) c = ([], behind u (fileStep state c).2)) ∨
      ∃ v, fileStep state c = ([assignment k v], .preKey) ∧
        ∀ u, fileStep (behind u state) c = ([assignment k (u ++ v)], .preKey) := by
  cases state with
  | preKey | key _ | comment | commentEscape => cases h
  | _ =>
    obtain rfl := Option.some.inj h
    simp only [fileStep, behind]
    split_ifs <;> first
      | exact .inr ⟨_, rfl, fun _ => rfl⟩
      | exact .inl ⟨by simp, rfl, fun u => by simp⟩

theorem readFile_behind {state : FileState} {k : Str} (h : openKey state = some k) (t : Str) :
    ∃ v later, readFile state t = assignment k v :: later ∧
      ∀ u, readFile (behind u state) t = assignment k (u ++ v) :: later := by
  induction t generalizing state with
  | nil =>
    cases state with
    | preKey | key _ | comment | commentEscape => cases h
    | _ =>
      obtain rfl := Option.some.inj h
      exact ⟨_, [], rfl, fun u => rfl⟩
  | cons c t ih =>
    rcases fileStep_behind h c with ⟨hnone, hopen, hshift⟩ | ⟨v, hstep, hshift⟩
    · obtain ⟨v, later, hread, hread'⟩ := ih hopen
      refine ⟨v, later, ?_, fun u => ?_⟩
      · rw [readFile, hnone, List.nil_append, hread]
      · rw [readFile, hshift u, List.nil_append, hread']
    · refine ⟨v, readFile .preKey t, ?_, fun u => ?_⟩
      · rw [readFile, hstep]
        rfl
      · rw [readFile, hshift u]
        rfl

/-- Text without line breaks ends no value. -/
theorem run_open {state : FileState} {k s : Str} (h : openKey state = some k)
    (hs : ∀ c ∈ s, isNewline c = false) :
    (run fileStep state s).1 = [] ∧ openKey (run fileStep state s).2 = some k := by
  have hstep : ∀ (state : FileState) c, isNewline c = false → openKey state = some k →
      (fileStep state c).1 = [] ∧ openKey (fileStep state c).2 = some k := by
    intro state c hc hopen
    cases state with
    | preKey | key _ | comment | commentEscape => cases hopen
    | _ =>
      obtain rfl := Option.some.inj hopen
      simp only [fileStep, hc]
      split_ifs <;> simp_all [openKey]
  exact ⟨run_silent hstep hs h, run_invariant (fun state c hc hopen => (hstep state c hc hopen).2) hs h⟩

/-- Bare text that neither begins nor ends with a blank. -/
structure BareText (s : Str) : Prop where
  bare : Bare s
  head : ∀ c, s.head? = some c → isBlank c = false
  last : ∀ c, s.getLast? = some c → isBlank c = false
  nonempty : s ≠ []

theorem run_quoted {k v s : Str} (hs : Bare s) :
    run fileStep (.doubleQuote k v) s = ([], .doubleQuote k (v ++ s)) ∧
      run fileStep (.singleQuote k v) s = ([], .singleQuote k (v ++ s)) := by
  induction s generalizing v with
  | nil => simp [run]
  | cons c s ih =>
    obtain ⟨-, hdouble, hsingle, hbackslash⟩ := hs c List.mem_cons_self
    obtain ⟨ihDouble, ihSingle⟩ := @ih (v ++ [c]) fun c hc => hs c (List.mem_cons_of_mem _ hc)
    have hdoubleStep : fileStep (.doubleQuote k v) c = ([], .doubleQuote k (v ++ [c])) := by
      simp [fileStep, hdouble, hbackslash]
    have hsingleStep : fileStep (.singleQuote k v) c = ([], .singleQuote k (v ++ [c])) := by
      simp [fileStep, hsingle]
    refine ⟨?_, ?_⟩
    · rw [run, hdoubleStep, ihDouble, List.append_assoc]
      rfl
    · rw [run, hsingleStep, ihSingle, List.append_assoc]
      rfl

theorem run_value {k v blanks s : Str} (hs : Bare s) : ∃ v' blanks', v' ++ blanks' = v ++ blanks ++ s ∧
    run fileStep (.value k v blanks) s = ([], .value k v' blanks') ∧
      (∀ c, s.getLast? = some c → isBlank c = false → blanks' = []) := by
  induction s using List.reverseRecOn with
  | nil => exact ⟨v, blanks, by simp, rfl, nofun⟩
  | append_singleton s c ih =>
    obtain ⟨v', blanks', hsame, hrun, -⟩ := ih fun c hc => hs c (List.mem_append_left _ hc)
    obtain ⟨hnewline, -, -, hbackslash⟩ := hs c (by simp)
    rw [run_append, hrun]
    cases hblank : isBlank c with
    | true =>
      refine ⟨v', blanks' ++ [c], ?_, ?_, fun d hd hd' => ?_⟩
      · rw [← List.append_assoc, hsame, List.append_assoc]
      · simp [run, fileStep, hnewline, hbackslash, hblank]
      · rw [List.getLast?_concat, Option.some.injEq] at hd
        rw [← hd, hblank] at hd'
        cases hd'
    | false =>
      refine ⟨v' ++ blanks' ++ [c], [], ?_, ?_, fun _ _ _ => rfl⟩
      · rw [List.append_nil, hsame, List.append_assoc]
      · simp [run, fileStep, hnewline, hbackslash, hblank]

/-- Whether the next character is taken as it is. -/
def isEscaping : FileState → Bool
  | .valueEscape _ _ | .doubleQuoteEscape _ _ => true
  | _ => false

/-- Bare text goes into the value as it is. -/
theorem run_bareText {state : FileState} {k s : Str} (h : openKey state = some k) (hescape : isEscaping state = false)
    (hs : BareText s) : run fileStep state s = ([], behind (pending state ++ s) (settled state)) := by
  have hvalue : ∀ v blanks, run fileStep (.value k v blanks) s = ([], .value k (v ++ blanks ++ s) []) := by
    intro v blanks
    obtain ⟨v', blanks', hsame, hrun, hlast⟩ := @run_value k v blanks s hs.bare
    have hend : blanks' = [] := by
      have hc := List.getLast?_eq_some_getLast hs.nonempty
      exact hlast _ hc (hs.last _ hc)
    subst hend
    rw [hrun, ← hsame, List.append_nil]
  cases state with
  | preKey | key _ | comment | commentEscape => cases h
  | valueEscape _ _ | doubleQuoteEscape _ _ => cases hescape
  | doubleQuote k' v =>
    obtain rfl := Option.some.inj h
    rw [(run_quoted hs.bare).1]
    simp [behind, settled, pending]
  | singleQuote k' v =>
    obtain rfl := Option.some.inj h
    rw [(run_quoted hs.bare).2]
    simp [behind, settled, pending]
  | value k' v blanks =>
    obtain rfl := Option.some.inj h
    rw [hvalue]
    simp [behind, settled, pending]
  | preValue k' v =>
    obtain rfl := Option.some.inj h
    obtain ⟨c, rest, rfl⟩ := List.exists_cons_of_ne_nil hs.nonempty
    obtain ⟨hnewline, hdouble, hsingle, hbackslash⟩ := hs.bare c List.mem_cons_self
    have hblank := hs.head c rfl
    have hfirst : fileStep (.preValue k' v) c = ([], .value k' (v ++ [c]) []) := by
      simp [fileStep, hnewline, hdouble, hsingle, hbackslash, hblank]
    have hfirst' : fileStep (.value k' v []) c = ([], .value k' (v ++ [c]) []) := by
      simp [fileStep, hnewline, hbackslash, hblank]
    have hsame : run fileStep (.preValue k' v) (c :: rest) = run fileStep (.value k' v []) (c :: rest) := by
      rw [run, run, hfirst, hfirst']
    rw [hsame, hvalue]
    simp [behind, settled, pending]

/-- A word that the splitter leaves as it is. -/
def IsWord (w : Str) : Prop := w ≠ [] ∧ ∀ c ∈ w, isBlank c = false ∧ isQuote c = false ∧ c ≠ '\\'

theorem readWords_word {u w : Str} (hw : ∀ c ∈ w, isBlank c = false ∧ isQuote c = false ∧ c ≠ '\\') (rest : Str) :
    readWords (.word u) (w ++ rest) = readWords (.word (u ++ w)) rest := by
  induction w generalizing u with
  | nil => rw [List.nil_append, List.append_nil]
  | cons c w ih =>
    obtain ⟨hblank, hquote, hbackslash⟩ := hw c List.mem_cons_self
    have hstep : wordStep (.word u) c = ([], .word (u ++ [c])) := by simp [wordStep, hblank, hquote, hbackslash]
    rw [List.cons_append, readWords, hstep, List.nil_append, ih fun c hc => hw c (List.mem_cons_of_mem _ hc),
      List.append_assoc]
    rfl

/-- The splitter begins a new word with what comes. -/
def isClear : WordState → Bool
  | .between | .word [] | .escape none [] => true
  | _ => false

theorem readWords_clear {state : WordState} (h : isClear state = true) {w : Str} (hw : IsWord w) (rest : Str) :
    readWords state (w ++ rest) = readWords (.word w) rest := by
  obtain ⟨c, w, rfl⟩ := List.exists_cons_of_ne_nil hw.1
  obtain ⟨hblank, hquote, hbackslash⟩ := hw.2 c List.mem_cons_self
  have hfirst : wordStep state c = ([], .word [c]) := by
    unfold isClear at h
    split at h
    · simp [wordStep, hblank, hquote, hbackslash]
    · simp [wordStep, hblank, hquote, hbackslash]
    · rfl
    · cases h
  rw [List.cons_append, readWords, hfirst, List.nil_append,
    readWords_word fun c hc => hw.2 c (List.mem_cons_of_mem _ hc)]
  rfl

/-- What stands behind the last word: nothing, a lone quote, or a blank and more. -/
inductive Trails : Str → List Str → Prop
  | nil : Trails [] []
  | quote : Trails ['"'] []
  | blank (rest : Str) : Trails (' ' :: rest) (readWords .between rest)

theorem readWords_trailing {t : Str} {ws : List Str} (h : Trails t ws) (w : Str) :
    readWords (.word w) t = w :: ws := by
  cases h <;> rfl

/-- Words that begin where the splitter is clear are read one by one. -/
theorem readWords_words {state : WordState} (h : isClear state = true) {ws us : List Str} (hne : ws ≠ [])
    (hws : ∀ w ∈ ws, IsWord w) {t : Str} (ht : Trails t us) : readWords state (unwords ws ++ t) = ws ++ us := by
  induction ws generalizing state with
  | nil => exact absurd rfl hne
  | cons w ws ih =>
    have hw := hws w List.mem_cons_self
    cases ws with
    | nil =>
      rw [unwords_singleton, readWords_clear h hw, readWords_trailing ht]
      rfl
    | cons w' ws =>
      have hrest := @ih .between rfl (List.cons_ne_nil _ _) fun w hw => hws w (List.mem_cons_of_mem _ hw)
      have hblank : ∀ rest, readWords (.word w) (' ' :: rest) = w :: readWords .between rest := fun rest => rfl
      rw [unwords_cons_cons, List.append_assoc, readWords_clear h hw, List.cons_append, hblank, hrest]
      rfl

def keptTokens (config : Config) : List Str :=
  (words (config .serviceArgs).orEmpty).filter fun t =>
    optName t ∉ rpcBindOpts ∧ ((config .disableWallet).truthy = true → optName t ∉ walletOpts)

def ownTokens (config : Config) : List Str :=
  pinnedTokens ++ if (config .disableWallet).truthy then ["-disablewallet".toList] else []

theorem hardenedTokens_split (config : Config) :
    hardenedTokens (config .serviceArgs).orEmpty config = keptTokens config ++ ownTokens config := by
  have hpins : pinnedTokens.filter (fun t => optName t ∉ walletOpts) = pinnedTokens := by decide
  simp only [hardenedTokens, keptTokens, ownTokens]
  cases (config .disableWallet).truthy with
  | true =>
    rw [if_pos rfl, if_pos rfl, List.filter_append, hpins, List.filter_filter, List.append_assoc]
    congr 1
    refine List.filter_congr fun t _ => ?_
    rw [← Bool.decide_and]
    exact decide_eq_decide.2 (by simp [and_comm])
  | false => simp

theorem ownTokens_words (config : Config) : ownTokens config ≠ [] ∧ ∀ w ∈ ownTokens config, IsWord w := by
  unfold ownTokens IsWord
  split <;> decide

theorem bareText_ends {s : Str} {c d : Char} (hbare : Bare s) (hhead : s.head? = some c) (hc : isBlank c = false)
    (hlast : s.getLast? = some d) (hd : isBlank d = false) : BareText s where
  bare := hbare
  head := by
    intro c' hc'
    rw [hhead] at hc'
    rwa [← Option.some.inj hc']
  last := by
    intro d' hd'
    rw [hlast] at hd'
    rwa [← Option.some.inj hd']
  nonempty := by
    rintro rfl
    cases hhead

theorem bareText_ownTokens (config : Config) : BareText (unwords (ownTokens config)) := by
  unfold ownTokens
  split
  · exact bareText_ends (by unfold Bare; decide +kernel) (c := '-') (by decide) rfl (d := 't') (by decide +kernel) rfl
  · exact bareText_ends (by unfold Bare; decide +kernel) (c := '-') (by decide) rfl (d := '2') (by decide +kernel) rfl

/-- Each token of the operator that stays, with the blank behind it. -/
def keptText (config : Config) : Str := (keptTokens config).flatMap fun t => t ++ [' ']

theorem unwords_flatMap (ts us : List Str) (hne : us ≠ []) :
    unwords (ts ++ us) = ts.flatMap (fun t => t ++ [' ']) ++ unwords us := by
  induction ts with
  | nil => rfl
  | cons t ts ih =>
    obtain ⟨u, rest, heq⟩ := List.exists_cons_of_ne_nil (List.append_ne_nil_of_right_ne_nil ts hne)
    rw [List.cons_append, heq, unwords_cons_cons, ← heq, ih, List.flatMap_cons]
    simp

theorem serviceArguments_eq (config : Config) : serviceArguments config =
    keptText config ++ (unwords (ownTokens config) ++ credentialArgs config) := by
  rw [serviceArguments, hardenServiceArgs, hardenedTokens_split, unwords_flatMap _ _ (ownTokens_words config).1,
    List.append_assoc]
  rfl

theorem keptText_last (config : Config) : keptText config = [] ∨ ∃ s, keptText config = s ++ [' '] := by
  unfold keptText
  rcases List.eq_nil_or_concat (keptTokens config) with hnil | ⟨ts, t, heq⟩
  · exact .inl (by rw [hnil]; rfl)
  · exact .inr ⟨_, by rw [heq, List.concat_eq_append, List.flatMap_append, List.flatMap_singleton, ← List.append_assoc]⟩

theorem keptText_newline (config : Config) : ∀ c ∈ keptText config, isNewline c = false := by
  intro c hc
  obtain ⟨t, ht, hc⟩ := List.mem_flatMap.1 hc
  rcases List.mem_append.1 hc with hc | hc
  · have hspace := (fieldsBy_spec (List.mem_filter.1 ht).1).2 c hc
    rw [Bool.eq_false_iff] at hspace ⊢
    intro hnewline
    refine hspace (isSpace_of_isBlank ?_)
    simp only [isNewline, isBlank, Bool.or_eq_true] at hnewline ⊢
    tauto
  · rw [List.mem_singleton.1 hc]
    decide

/-- Where the reader of the file stands when the tokens of the charm begin. -/
def fileAtPins (config : Config) : FileState :=
  (run fileStep (.doubleQuote variableName []) (keptText config)).2

/-- The arguments that the tokens of the operator have become, and where the splitter stands behind them. -/
def operatorWords (config : Config) : List Str := (run wordStep .between (pending (fileAtPins config))).1

def wordsAtPins (config : Config) : WordState := (run wordStep .between (pending (fileAtPins config))).2

/-- What the file assigns behind the tokens of the charm: first comes the rest of their value. -/
def assignedBehind (config : Config) : List (Str × Str) :=
  readFile (settled (fileAtPins config)) (credentialArgs config ++ ['"'])

def restOfValue (config : Config) : Str := ((assignedBehind config).head?.map (·.2)).getD []

/-- A later assignment of the arguments takes the place of the charm's. -/
def reassigned (config : Config) : Option Str :=
  ((assignedBehind config).tail.findRev? fun a => a.1 == variableName).map (·.2)

/-- The arguments behind the one that the last token of the charm is part of. -/
def behindWords (config : Config) : List Str := (readWords (.word []) (restOfValue config)).tail

theorem readFile_start (config : Config) : readFile .preKey (renderNodeEnv config) =
    readFile (.doubleQuote variableName []) (serviceArguments config ++ ['"']) := by
  have hname : IsName variableName := by
    unfold IsName
    decide
  have hopening : "BITCOIND_CLI_ARGS=\"".toList = variableName ++ ['=', '"'] := by decide +kernel
  have hassoc : ∀ name args : Str, name ++ ['=', '"'] ++ args ++ ['"'] = name ++ '=' :: '"' :: (args ++ ['"']) := by
    intro name args
    simp
  have hsplit : renderNodeEnv config = variableName ++ '=' :: '"' :: (serviceArguments config ++ ['"']) :=
    (congrArg (fun opening => opening ++ serviceArguments config ++ ['"']) hopening).trans (hassoc _ _)
  rw [hsplit, readFile_name (by decide) hname]
  rfl

theorem fileAtPins_spec (config : Config) :
    (run fileStep (.doubleQuote variableName []) (keptText config)).1 = [] ∧
      openKey (fileAtPins config) = some variableName ∧ isEscaping (fileAtPins config) = false := by
  obtain ⟨hnone, hopen⟩ := @run_open (.doubleQuote variableName []) _ _ rfl (keptText_newline config)
  refine ⟨hnone, hopen, ?_⟩
  unfold fileAtPins
  rcases keptText_last config with hnil | ⟨s, heq⟩
  · rw [hnil]
    rfl
  · rw [heq, run_append]
    generalize (run fileStep (.doubleQuote variableName []) s).2 = state
    cases state <;> rfl

/-- Bare text of the charm goes into the value between what was read before and what is read behind. -/
theorem variableValue_own {config : Config} {own rest : Str} (heq : serviceArguments config = keptText config ++ (own ++ rest))
    (hown : BareText own) : ∃ v later, readFile (settled (fileAtPins config)) (rest ++ ['"']) = (variableName, v) :: later ∧
      variableValue variableName (renderNodeEnv config) =
        some (((later.findRev? fun a => a.1 == variableName).map (·.2)).getD (pending (fileAtPins config) ++ own ++ v)) := by
  obtain ⟨hnone, hopen, hescape⟩ := fileAtPins_spec config
  have hsettled : openKey (settled (fileAtPins config)) = some variableName := by
    revert hopen
    cases fileAtPins config <;> exact id
  have hassignment : ∀ u, assignment variableName u = (variableName, u) := by
    intro u
    refine assignment_name ?_ u
    unfold IsName
    decide
  obtain ⟨v, later, hread, hbehind⟩ := readFile_behind hsettled (rest ++ ['"'])
  simp only [hassignment] at hread hbehind
  refine ⟨v, later, hread, ?_⟩
  have hfile : readFile .preKey (renderNodeEnv config) =
      (variableName, pending (fileAtPins config) ++ own ++ v) :: later := by
    rw [readFile_start, heq, List.append_assoc, readFile_append, hnone, List.nil_append, List.append_assoc,
      readFile_append]
    have hrun := run_bareText hopen hescape hown
    rw [fileAtPins] at hrun hbehind ⊢
    rw [hrun, List.nil_append, hbehind]
  rw [variableValue, hfile, List.findRev?_eq_find?_reverse, List.reverse_cons, List.find?_append,
    List.findRev?_eq_find?_reverse]
  cases later.reverse.find? fun a => a.1 == variableName <;> simp

theorem variableValue_eq (config : Config) : variableValue variableName (renderNodeEnv config) =
    some ((reassigned config).getD
      (pending (fileAtPins config) ++ unwords (ownTokens config) ++ restOfValue config)) := by
  obtain ⟨v, later, hread, hvalue⟩ := variableValue_own (serviceArguments_eq config) (bareText_ownTokens config)
  rw [hvalue, reassigned, restOfValue, assignedBehind, hread]
  rfl

/-- The charm's tokens are arguments of their own: systemd is inside no quote and behind no backslash where they
begin, and nothing behind them assigns the arguments anew. -/
def PinsStand (config : Config) : Prop := isClear (wordsAtPins config) = true ∧ reassigned config = none

instance (config : Config) : Decidable (PinsStand config) := inferInstanceAs (Decidable (_ ∧ _))

/-- The arguments where the charm's tokens are swallowed by an open word, or replaced. -/
def swallowedArguments (config : Config) : List Str :=
  match reassigned config with
  | some value => splitWords value
  | none => operatorWords config ++ readWords (wordsAtPins config) (unwords (ownTokens config) ++ restOfValue config)

theorem nodeArguments_swallowed (config : Config) : nodeArguments config = swallowedArguments config := by
  rw [nodeArguments, variableValue_eq, Option.getD_some, swallowedArguments]
  cases hre : reassigned config with
  | some value => rfl
  | none =>
    rw [Option.getD_none, splitWords, List.append_assoc, readWords_append]
    rfl

/-- The places where bare text has been read into an empty value. -/
inductive Settled (k : Str) : FileState → Prop
  | value : Settled k (.value k [] [])
  | singleQuote : Settled k (.singleQuote k [])
  | doubleQuote : Settled k (.doubleQuote k [])

theorem settled_spec {state : FileState} {k : Str} (h : openKey state = some k) (hescape : isEscaping state = false) :
    Settled k (settled state) := by
  cases state with
  | preKey | key _ | comment | commentEscape => cases h
  | valueEscape _ _ | doubleQuoteEscape _ _ => cases hescape
  | preValue _ _ | value _ _ _ =>
    obtain rfl := Option.some.inj h
    exact .value
  | singleQuote _ _ =>
    obtain rfl := Option.some.inj h
    exact .singleQuote
  | doubleQuote _ _ =>
    obtain rfl := Option.some.inj h
    exact .doubleQuote

/-- A blank and a flag behind bare text belong to its value. -/
theorem readFile_flag {k : Str} {state : FileState} (h : Settled k state) (t : Str) :
    ∃ v later, readFile state (' ' :: '-' :: t) = assignment k (' ' :: v) :: later := by
  obtain ⟨next, hopen, hread⟩ : ∃ next, openKey next = some k ∧
      readFile state (' ' :: '-' :: t) = readFile (behind [' '] next) t := by
    cases h with
    | value => exact ⟨.value k ['-'] [], rfl, rfl⟩
    | singleQuote => exact ⟨.singleQuote k ['-'], rfl, rfl⟩
    | doubleQuote => exact ⟨.doubleQuote k ['-'], rfl, rfl⟩
  obtain ⟨v, later, -, hbehind⟩ := readFile_behind hopen t
  exact ⟨v, later, hread.trans (hbehind [' '])⟩

/-- Behind the tokens stands nothing, the quote that ends the value, or a blank. -/
theorem restOfValue_trails (config : Config) : Trails (restOfValue config) (behindWords config) := by
  obtain ⟨-, hopen, hescape⟩ := fileAtPins_spec config
  have hsettled := settled_spec hopen hescape
  unfold behindWords restOfValue assignedBehind
  generalize settled (fileAtPins config) = state at hsettled
  unfold credentialArgs
  split
  · obtain ⟨v, later, hread⟩ := readFile_flag hsettled ("rpcuser=".toList ++ (config .rpcUser).toText ++
      " -rpcpassword=".toList ++ (config .rpcPassword).toText ++ ['"'])
    have hsplit : " -rpcuser=".toList ++ (config .rpcUser).toText ++ " -rpcpassword=".toList ++
        (config .rpcPassword).toText ++ ['"'] = ' ' :: '-' :: ("rpcuser=".toList ++ (config .rpcUser).toText ++
          " -rpcpassword=".toList ++ (config .rpcPassword).toText ++ ['"']) := rfl
    rw [hsplit, hread]
    exact .blank v
  · cases hsettled with
    | value => exact .quote
    | singleQuote => exact .quote
    | doubleQuote => exact .nil

theorem nodeArguments_standing {config : Config} (h : PinsStand config) :
    nodeArguments config = operatorWords config ++ (ownTokens config ++ behindWords config) := by
  rw [nodeArguments_swallowed, swallowedArguments, h.2]
  obtain ⟨hne, hwords⟩ := ownTokens_words config
  exact congrArg _ (readWords_words h.1 hne hwords (restOfValue_trails config))

theorem ownTokens_filter {opt : Str} (hopt : opt ∈ rpcBindOpts) (config : Config) :
    (ownTokens config).filter (isOption opt) = pinnedTokens.filter (isOption opt) := by
  have disablewallet : ∀ opt ∈ rpcBindOpts, isOption opt "-disablewallet".toList = false := by decide
  rw [ownTokens, List.filter_append]
  split
  · rw [List.filter_singleton, disablewallet opt hopt]
    simp
  · simp

/-- The charm's tokens are all there is of each kind exactly when no other argument is of that kind. -/
theorem filter_surrounded {opt : Str} {before own behind pins : List Str}
    (hown : own.filter (isOption opt) = pins.filter (isOption opt)) :
    (before ++ (own ++ behind)).filter (isOption opt) = pins.filter (isOption opt) ↔
      ∀ w ∈ before ++ behind, isOption opt w = false := by
  have hcount : (before.filter (isOption opt) ++ (pins.filter (isOption opt) ++ behind.filter (isOption opt)) =
      pins.filter (isOption opt)) ↔ before.filter (isOption opt) = [] ∧ behind.filter (isOption opt) = [] := by
    constructor
    · intro h
      have hlength := congrArg List.length h
      simp only [List.length_append] at hlength
      exact ⟨List.eq_nil_of_length_eq_zero (by omega), List.eq_nil_of_length_eq_zero (by omega)⟩
    · rintro ⟨hbefore, hbehind⟩
      rw [hbefore, hbehind, List.append_nil, List.nil_append]
  rw [List.filter_append, List.filter_append, hown, hcount, List.filter_eq_nil_iff, List.filter_eq_nil_iff]
  simp only [List.mem_append, Bool.not_eq_true]
  exact ⟨fun h w hw => hw.elim (h.1 w) (h.2 w), fun h => ⟨fun w hw => h w (.inl hw), fun w hw => h w (.inr hw)⟩⟩

/-- No argument of the operator or behind the charm's tokens is one of the pinned options. -/
def Unrivalled (config : Config) : Prop :=
  ∀ w ∈ operatorWords config ++ behindWords config, ∀ opt ∈ rpcBindOpts, isOption opt w = false

instance (config : Config) : Decidable (Unrivalled config) := by
  unfold Unrivalled
  infer_instance

theorem pinned_iff_unrivalled {config : Config} (h : PinsStand config) :
    LoopbackPinned (nodeArguments config) ↔ Unrivalled config := by
  have kind : ∀ opt ∈ rpcBindOpts, ((nodeArguments config).filter (isOption opt) =
      pinnedTokens.filter (isOption opt) ↔
        ∀ w ∈ operatorWords config ++ behindWords config, isOption opt w = false) := by
    intro opt hopt
    rw [nodeArguments_standing h]
    exact filter_surrounded (ownTokens_filter hopt config)
  have allowIp := kind "rpcallowip".toList (by decide)
  have bind := kind "rpcbind".toList (by decide)
  have port := kind "rpcport".toList (by decide)
  constructor
  · intro hpinned w hw opt hopt
    simp only [rpcBindOpts, List.mem_cons, List.not_mem_nil, or_false] at hopt
    rcases hopt with rfl | rfl | rfl
    · exact bind.1 hpinned.bind w hw
    · exact allowIp.1 hpinned.allowIp w hw
    · exact port.1 hpinned.port w hw
  · intro hall
    refine ⟨allowIp.2 fun w hw => ?_, bind.2 fun w hw => ?_, port.2 fun w hw => ?_⟩
    · exact hall w hw _ (by decide)
    · exact hall w hw _ (by decide)
    · exact hall w hw _ (by decide)

example : PinsStand (withArguments "-uacomment='x'".toList) ∧ Unrivalled (withArguments "-uacomment='x'".toList) := by
  decide +kernel

end BitcoinRpcOperator.QuotedArguments
