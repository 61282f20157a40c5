import BitcoinRpcOperator.EnvironmentLines
import BitcoinRpcOperator.QuotedArguments

/-!
# One pair of credentials, four consumers

The charm hands the credentials of the node to the node itself, to the monitor, to the proxy
and to its own probe. The node's go through a quoted value and a splitter, those of the
monitor and of the proxy through bare values. All four agree when nothing in the credentials
means something to either reader. The converse counts quotes and backslashes: the splitter
takes at least one away, and nothing on the way puts one back.
-/

namespace BitcoinRpcOperator.CredentialAgreement
open Text ServiceConfiguration SystemdArguments EnvironmentLines LoopbackPin QuotedArguments Transducers

/-- The value an argument gives the option `name`. -/
def optionValue (name argument : Str) : Option Str :=
  if optionName argument = some name then (cutAt (· == '=') argument).2 else none

/-- The last of the arguments about an option counts. -/
def receivedOption (name : Str) (arguments : List Str) : Option Str :=
  (arguments.filter (isOption name)).getLast?.bind (optionValue name)

structure Credentials where
  user : Option Str
  password : Option Str
  deriving DecidableEq, Repr

/-- What `bitcoind` finds on its command line. -/
def nodeCredentials (config : Config) : Credentials :=
  ⟨receivedOption "rpcuser".toList (nodeArguments config),
    receivedOption "rpcpassword".toList (nodeArguments config)⟩

def monitorCredentials (config : Config) : Credentials :=
  ⟨variableValue "BITCOIN_RPC_USER".toList (renderMonitorEnv config),
    variableValue "BITCOIN_RPC_PASSWORD".toList (renderMonitorEnv config)⟩

def proxyCredentials (config : Config) : Credentials :=
  ⟨variableValue "PROXY_UPSTREAM_USER".toList (renderRpcProxyEnv config),
    variableValue "PROXY_UPSTREAM_PASSWORD".toList (renderRpcProxyEnv config)⟩

/-- `requests` encodes a text credential as Latin-1 and raises where a character has no byte. -/
def latin1 (s : Str) : Option Bytes :=
  s.mapM fun c => if c.toNat < 256 then some c.toUInt8 else none

/-- The bytes `wait_for_running_version` sends behind `Basic`, before they become base 64. -/
def probeCredentials (config : Config) : Option Bytes := do
  let user ← latin1 (config .rpcUser).orEmpty
  let password ← latin1 (config .rpcPassword).orEmpty
  return user ++ utf8 [':'] ++ password

/-- Every consumer gets these credentials. -/
structure Agreement (config : Config) (user password : Str) : Prop where
  node : nodeCredentials config = ⟨some user, some password⟩
  monitor : monitorCredentials config = ⟨some user, some password⟩
  proxy : proxyCredentials config = ⟨some user, some password⟩
  probe : probeCredentials config = some (utf8 user ++ utf8 [':'] ++ utf8 password)

/-- A configuration with a user and a password. -/
structure Secured (config : Config) (user password : Str) : Prop where
  userOption : config .rpcUser = .str user
  passwordOption : config .rpcPassword = .str password
  userNonempty : user ≠ []
  passwordNonempty : password ≠ []

/-- No white space, quote or backslash. -/
def Clean (s : Str) : Prop := Plain s ∧ ∀ c ∈ s, isBlank c = false

theorem Clean.bare {s : Str} (h : Clean s) : Bare s := by
  intro c hc
  have hblank := h.2 c hc
  refine ⟨?_, h.1 c hc⟩
  simp only [isBlank, isNewline, Bool.or_eq_false_iff] at hblank ⊢
  exact ⟨hblank.1.2, hblank.2⟩

theorem Clean.strip {s : Str} (h : Clean s) : stripBy isBlank s = s := by
  have hdrop : s.dropWhile isBlank = s := by
    cases s with
    | nil => rfl
    | cons c s => rw [List.dropWhile_cons_of_neg (by simp [h.2 c])]
  rw [stripBy, hdrop, List.rdropWhile_eq_self_iff]
  intro hne
  simp [h.2 _ (List.getLast_mem hne)]

/-- Only ASCII has the same bytes in Latin-1 and in UTF-8. -/
def Ascii (s : Str) : Prop := ∀ c ∈ s, c.toNat < 128

/-- What an option of the proxy becomes in its file. -/
def listenText (config : Config) : Str := rpcProxyValue config "PROXY_LISTEN".toList "0.0.0.0:8331".toList

def extendText (config : Config) : Str := rpcProxyValue config "PROXY_EXTEND_ALLOWLIST".toList []

/-- The lines of the proxy's file between those two options, and those behind. -/
def innerLines (config : Config) : List (Str × Str) :=
  ((rpcProxyEnv.drop 1).take 6).map fun e => (e.1, rpcProxyValue config e.1 e.2)

def closingLines (config : Config) : List (Str × Str) :=
  (rpcProxyEnv.drop 8).map fun e => (e.1, rpcProxyValue config e.1 e.2)

/-- The other texts leave the readers where the charm's own text expects them. -/
structure Undisturbed (config : Config) : Prop where
  /-- The splitter is inside no quote and no word when the charm's tokens begin. -/
  args : isClear (wordsAtPins config) = true
  /-- The line of the address to listen at ends where the charm ends it. -/
  listen : (run fileStep (.preValue "PROXY_LISTEN".toList []) (listenText config ++ ['\n'])).2 = .preKey
  /-- The list of methods and the lines behind it assign no credentials. -/
  extend : ∀ a ∈ readFile (.preValue "PROXY_EXTEND_ALLOWLIST".toList [])
    (extendText config ++ '\n' :: lines (closingLines config)),
      a.1 ≠ "PROXY_UPSTREAM_USER".toList ∧ a.1 ≠ "PROXY_UPSTREAM_PASSWORD".toList

/-- The operator's own arguments leave the quotes of the charm open and hide no quote in a credential. -/
structure Unquoted (config : Config) : Prop where
  quoted : ∃ v, fileAtPins config = .doubleQuote variableName v
  words : ∀ w ∈ operatorWords config,
    isOption "rpcuser".toList w = true ∨ isOption "rpcpassword".toList w = true → Plain w

section
variable {config : Config} {user password : Str}

theorem Secured.userTruthy (h : Secured config user password) :
    (config .rpcUser).truthy = true := by
  simpa [h.userOption, Value.truthy] using h.userNonempty

theorem Secured.passwordTruthy (h : Secured config user password) :
    (config .rpcPassword).truthy = true := by
  simpa [h.passwordOption, Value.truthy] using h.passwordNonempty

theorem Secured.credentialArgs (h : Secured config user password) :
    credentialArgs config =
      " -rpcuser=".toList ++ user ++ " -rpcpassword=".toList ++ password := by
  rw [ServiceConfiguration.credentialArgs, h.userTruthy, h.passwordTruthy, h.userOption,
    h.passwordOption]
  rfl

theorem receivedOption_concat {name w : Str} {arguments : List Str} (hw : isOption name w = true) :
    receivedOption name (arguments ++ [w]) = optionValue name w := by
  rw [receivedOption, List.filter_append, List.filter_singleton, hw]
  simp

theorem receivedOption_other {name w : Str} {arguments : List Str} (hw : isOption name w = false) :
    receivedOption name (arguments ++ [w]) = receivedOption name arguments := by
  rw [receivedOption, List.filter_append, List.filter_singleton, hw]
  simp [receivedOption]

/-- A clean credential makes one argument. -/
theorem Clean.isWord {flag s : Str} (h : Clean s) (hflag : IsWord flag) : IsWord (flag ++ s) := by
  refine ⟨by simp [hflag.1], fun c hc => ?_⟩
  rcases List.mem_append.1 hc with hc | hc
  · exact hflag.2 c hc
  · obtain ⟨hdouble, hsingle, hbackslash⟩ := h.1 c hc
    refine ⟨h.2 c hc, ?_, hbackslash⟩
    rw [isQuote, Bool.or_eq_false_iff, beq_eq_false_iff_ne, beq_eq_false_iff_ne]
    exact ⟨hdouble, hsingle⟩

def credentialFlags (user password : Str) : List Str :=
  ["-rpcuser=".toList ++ user, "-rpcpassword=".toList ++ password]

theorem credentialFlags_words (huser : Clean user) (hpassword : Clean password) :
    ∀ w ∈ credentialFlags user password, IsWord w := by
  have hflags : IsWord "-rpcuser=".toList ∧ IsWord "-rpcpassword=".toList := by
    unfold IsWord
    decide
  intro w hw
  simp only [credentialFlags, List.mem_cons, List.not_mem_nil, or_false] at hw
  rcases hw with rfl | rfl
  · exact huser.isWord hflags.1
  · exact hpassword.isWord hflags.2

theorem bareText_word {w : Str} (hw : IsWord w) : BareText w := by
  refine ⟨fun c hc => ?_, fun c hc => ?_, fun c hc => ?_, hw.1⟩
  · obtain ⟨hblank, hquote, hbackslash⟩ := hw.2 c hc
    simp only [isBlank, isNewline, isQuote, Bool.or_eq_false_iff, beq_eq_false_iff_ne] at hblank hquote ⊢
    exact ⟨⟨hblank.1.2, hblank.2⟩, hquote.1, hquote.2, hbackslash⟩
  · exact (hw.2 c (List.mem_of_mem_head? hc)).1
  · exact (hw.2 c (List.mem_of_getLast? hc)).1

/-- Words joined by blanks are bare text. -/
theorem bareText_words {ws : List Str} (hne : ws ≠ []) (hws : ∀ w ∈ ws, IsWord w) : BareText (unwords ws) := by
  obtain ⟨w, rest, rfl⟩ := List.exists_cons_of_ne_nil hne
  obtain ⟨front, last, hlast⟩ := (List.eq_nil_or_concat (w :: rest)).resolve_left hne
  have hw := bareText_word (hws w List.mem_cons_self)
  have hend := bareText_word (hws last (by rw [hlast]; simp))
  have hhead : ∃ t, unwords (w :: rest) = w ++ t := by
    cases rest with
    | nil => exact ⟨[], by rw [unwords_singleton, List.append_nil]⟩
    | cons u rest => exact ⟨_, unwords_cons_cons w u rest⟩
  have htail : ∃ t, unwords (w :: rest) = t ++ last := by
    rw [hlast, List.concat_eq_append, unwords_flatMap front [last] (List.cons_ne_nil _ _), unwords_singleton]
    exact ⟨_, rfl⟩
  obtain ⟨t, ht⟩ := hhead
  obtain ⟨t', ht'⟩ := htail
  refine ⟨fun c hc => ?_, fun c hc => ?_, fun c hc => ?_, ?_⟩
  · rcases mem_unwords hc with rfl | ⟨u, hu, hc⟩
    · decide
    · exact (bareText_word (hws u hu)).bare c hc
  · rw [ht, List.head?_append_of_ne_nil _ hw.nonempty] at hc
    exact hw.head c hc
  · rw [ht', List.getLast?_append_of_ne_nil _ hend.nonempty] at hc
    exact hend.last c hc
  · rw [ht]
    exact List.append_ne_nil_of_left_ne_nil hw.nonempty _

/-- The charm's tokens and clean credentials become arguments of their own, the last ones. -/
theorem nodeArguments_clean (h : Secured config user password) (hothers : Undisturbed config) (huser : Clean user)
    (hpassword : Clean password) : nodeArguments config =
      operatorWords config ++ (ownTokens config ++ credentialFlags user password) := by
  have hwords : ∀ w ∈ ownTokens config ++ credentialFlags user password, IsWord w := by
    intro w hw
    rcases List.mem_append.1 hw with hw | hw
    · exact (ownTokens_words config).2 w hw
    · exact credentialFlags_words huser hpassword w hw
  have hne : ownTokens config ++ credentialFlags user password ≠ [] :=
    List.append_ne_nil_of_left_ne_nil (ownTokens_words config).1 _
  have hjoined : unwords (ownTokens config) ++ credentialArgs config =
      unwords (ownTokens config ++ credentialFlags user password) := by
    have hflags : credentialFlags user password ≠ [] := List.cons_ne_nil _ _
    rw [unwords_append (ownTokens_words config).1 hflags, h.credentialArgs]
    simp [credentialFlags, unwords_cons_cons]
  have heq : serviceArguments config = keptText config ++
      (unwords (ownTokens config ++ credentialFlags user password) ++ []) := by
    rw [serviceArguments_eq, hjoined, List.append_nil]
  obtain ⟨v, later, hread, hvalue⟩ := variableValue_own heq (bareText_words hne hwords)
  obtain ⟨-, hopen, hescape⟩ := fileAtPins_spec config
  have htrails : later = [] ∧ Trails v [] := by
    have hsettled := settled_spec hopen hescape
    generalize settled (fileAtPins config) = state at hsettled hread
    cases hsettled with
    | value =>
      obtain ⟨hv, hlater⟩ := List.cons.inj hread
      exact ⟨hlater.symm, by rw [← (Prod.mk.inj hv).2]; exact .quote⟩
    | singleQuote =>
      obtain ⟨hv, hlater⟩ := List.cons.inj hread
      exact ⟨hlater.symm, by rw [← (Prod.mk.inj hv).2]; exact .quote⟩
    | doubleQuote =>
      obtain ⟨hv, hlater⟩ := List.cons.inj hread
      exact ⟨hlater.symm, by rw [← (Prod.mk.inj hv).2]; exact .nil⟩
  obtain ⟨rfl, htrails⟩ := htrails
  rw [nodeArguments, hvalue, Option.getD_some, splitWords]
  simp only [List.findRev?, Option.map_none, Option.getD_none]
  rw [List.append_assoc, readWords_append]
  exact congrArg _ ((readWords_words hothers.args hne hwords htrails).trans (List.append_nil _))

theorem nodeCredentials_clean (h : Secured config user password) (hothers : Undisturbed config) (huser : Clean user)
    (hpassword : Clean password) : nodeCredentials config = ⟨some user, some password⟩ := by
  have hkinds : ∀ w, isOption "rpcuser".toList ("-rpcpassword=".toList ++ w) = false ∧
      isOption "rpcuser".toList ("-rpcuser=".toList ++ w) = true ∧
      isOption "rpcpassword".toList ("-rpcpassword=".toList ++ w) = true := by
    intro w
    have hu : optionName ("-rpcuser=".toList ++ w) = some "rpcuser".toList := rfl
    have hp : optionName ("-rpcpassword=".toList ++ w) = some "rpcpassword".toList := rfl
    rw [isOption, isOption, isOption, hu, hp]
    decide
  have huserValue : optionValue "rpcuser".toList ("-rpcuser=".toList ++ user) = some user := rfl
  have hpasswordValue : optionValue "rpcpassword".toList ("-rpcpassword=".toList ++ password) =
      some password := rfl
  have hlast : nodeArguments config = operatorWords config ++ ownTokens config ++ ["-rpcuser=".toList ++ user] ++
      ["-rpcpassword=".toList ++ password] := by
    rw [nodeArguments_clean h hothers huser hpassword, credentialFlags, List.append_assoc, List.append_assoc]
    rfl
  rw [nodeCredentials, hlast, receivedOption_concat (hkinds password).2.2,
    receivedOption_other (hkinds password).1, receivedOption_concat (hkinds user).2.1,
    huserValue, hpasswordValue]

theorem monitorValue_bare (h : Secured config user password) (huser : Bare user)
    (hpassword : Bare password) : BareLines
      (monitorEnv.map fun e => (e.1, monitorValue config e.1 e.2)) := by
  have hdefault : ∀ e ∈ monitorEnv, Bare e.2 := by
    unfold Bare
    decide
  intro e he
  obtain ⟨d, hd, rfl⟩ := List.mem_map.1 he
  refine ⟨(monitorEnv_names d hd).1, (monitorEnv_names d hd).2, ?_⟩
  unfold monitorValue
  split
  · rw [h.userOption]
    exact huser
  · split
    · rw [h.passwordOption]
      exact hpassword
    · exact hdefault d hd

theorem monitorCredentials_clean (h : Secured config user password) (huser : Clean user)
    (hpassword : Clean password) : monitorCredentials config = ⟨some user, some password⟩ := by
  have hbare := monitorValue_bare h huser.bare hpassword.bare
  have hread : ∀ name value, monitorEnv.findRev? (·.1 == name) = some (name, value) →
      variableValue name (renderMonitorEnv config) =
        some (stripBy isBlank (monitorValue config name value)) := by
    intro name value hname
    rw [renderMonitorEnv_eq, variableValue_lines hbare,
      lastValue_map monitorEnv fun e => monitorValue config e.1 e.2, hname]
    rfl
  have huserValue : monitorValue config "BITCOIN_RPC_USER".toList "default".toList = user := by
    rw [monitorValue, if_pos ⟨rfl, h.userTruthy⟩, h.userOption]
    rfl
  have hpasswordValue :
      monitorValue config "BITCOIN_RPC_PASSWORD".toList "default".toList = password := by
    rw [monitorValue, if_neg fun hkey => absurd hkey.1 (by decide),
      if_pos ⟨rfl, h.passwordTruthy⟩, h.passwordOption]
    rfl
  rw [monitorCredentials, hread "BITCOIN_RPC_USER".toList "default".toList (by decide),
    hread "BITCOIN_RPC_PASSWORD".toList "default".toList (by decide), huserValue, hpasswordValue,
    huser.strip, hpassword.strip]

theorem rpcProxyEnv_split (config : Config) : renderRpcProxyEnv config =
    "PROXY_LISTEN".toList ++ '=' :: (listenText config ++ ['\n'] ++ (lines (innerLines config) ++
      ("PROXY_EXTEND_ALLOWLIST".toList ++ '=' :: (extendText config ++ '\n' :: lines (closingLines config))))) := by
  have hlines : ∀ e f : Str × Str, ∀ inner closing : List (Str × Str),
      lines (e :: (inner ++ f :: closing)) = e.1 ++ '=' :: (e.2 ++ ['\n'] ++ (lines inner ++
        (f.1 ++ '=' :: (f.2 ++ '\n' :: lines closing)))) := by
    intro e f inner closing
    simp [lines]
  rw [renderRpcProxyEnv_eq]
  exact hlines _ _ (innerLines config) (closingLines config)

theorem innerLines_bare (h : Secured config user password) (huser : Bare user) (hpassword : Bare password) :
    BareLines (innerLines config) := by
  have hplain : ∀ e ∈ (rpcProxyEnv.drop 1).take 6, e.1 ≠ "PROXY_FILTER".toList ∧ e.1 ≠ "PROXY_LISTEN".toList ∧
      e.1 ≠ "PROXY_EXTEND_ALLOWLIST".toList ∧ Bare e.2 := by
    unfold Bare
    decide
  intro e he
  obtain ⟨d, hd, rfl⟩ := List.mem_map.1 he
  have hmem : d ∈ rpcProxyEnv := List.mem_of_mem_drop (List.mem_of_mem_take hd)
  refine ⟨(rpcProxyEnv_names d hmem).1, (rpcProxyEnv_names d hmem).2, ?_⟩
  obtain ⟨hfilter, hlisten, hextend, hdefault⟩ := hplain d hd
  have hoverride : (rpcProxyOverride config d.1).truthy = true → Bare (rpcProxyOverride config d.1).toText := by
    unfold rpcProxyOverride
    rw [if_neg hlisten, if_neg hextend]
    split
    · rw [h.userOption]
      exact fun _ => huser
    · split
      · rw [h.passwordOption]
        exact fun _ => hpassword
      · exact nofun
  dsimp only
  rw [rpcProxyValue, if_neg hfilter]
  split
  · exact hoverride ‹_›
  · exact hdefault

theorem readFile_linesBefore {entries : List (Str × Str)} (h : BareLines entries) (rest : Str) :
    readFile .preKey (lines entries ++ rest) =
      (entries.map fun e => (e.1, stripBy isBlank e.2)) ++ readFile .preKey rest := by
  induction entries with
  | nil => rfl
  | cons e entries ih =>
    obtain ⟨hne, hname, hvalue⟩ := h e (by simp)
    have hline : lines (e :: entries) ++ rest = e.1 ++ '=' :: (e.2 ++ '\n' :: (lines entries ++ rest)) := by
      simp [lines]
    rw [hline, readFile_name hne hname, readFile_preValue hvalue, assignment_name hname,
      ih fun e he => h e (List.mem_cons_of_mem _ he)]
    rfl

/-- What is assigned between others counts where nothing behind it assigns the name. -/
theorem findRev_between {α : Type} {p : α → Bool} {before inner behind : List α} {a : α}
    (hinner : inner.findRev? p = some a) (hbehind : ∀ b ∈ behind, p b = false) :
    (before ++ (inner ++ behind)).findRev? p = some a := by
  have hnone : behind.reverse.find? p = none := by
    rw [List.find?_eq_none]
    intro b hb
    rw [hbehind b (List.mem_reverse.1 hb)]
    decide
  rw [List.findRev?_eq_find?_reverse] at hinner ⊢
  rw [List.reverse_append, List.reverse_append, List.find?_append, List.find?_append, hnone, hinner]
  rfl

theorem proxyCredentials_clean (h : Secured config user password) (hothers : Undisturbed config)
    (huser : Clean user) (hpassword : Clean password) :
    proxyCredentials config = ⟨some user, some password⟩ := by
  have hnames : ∀ name ∈ ["PROXY_LISTEN".toList, "PROXY_EXTEND_ALLOWLIST".toList], name ≠ [] ∧ IsName name := by
    unfold IsName
    decide
  have hread : readFile .preKey (renderRpcProxyEnv config) =
      (run fileStep (.preValue "PROXY_LISTEN".toList []) (listenText config ++ ['\n'])).1 ++
        ((innerLines config).map (fun e => (e.1, stripBy isBlank e.2)) ++
          readFile (.preValue "PROXY_EXTEND_ALLOWLIST".toList [])
            (extendText config ++ '\n' :: lines (closingLines config))) := by
    obtain ⟨hne, hname⟩ := hnames _ List.mem_cons_self
    obtain ⟨hne', hname'⟩ := hnames "PROXY_EXTEND_ALLOWLIST".toList (by simp)
    rw [rpcProxyEnv_split, readFile_name hne hname, readFile_append, hothers.listen,
      readFile_linesBefore (innerLines_bare h huser.bare hpassword.bare), readFile_name hne' hname']
  have huserText : (config .rpcUser).toText = user := by
    rw [h.userOption]
    rfl
  have hpasswordText : (config .rpcPassword).toText = password := by
    rw [h.passwordOption]
    rfl
  have hvalues : rpcProxyValue config "PROXY_UPSTREAM_USER".toList "default".toList = user ∧
      rpcProxyValue config "PROXY_UPSTREAM_PASSWORD".toList "default".toList = password := by
    have huserKey : rpcProxyOverride config "PROXY_UPSTREAM_USER".toList = config .rpcUser := rfl
    have hpasswordKey : rpcProxyOverride config "PROXY_UPSTREAM_PASSWORD".toList = config .rpcPassword := rfl
    have hfilter : "PROXY_UPSTREAM_USER".toList ≠ "PROXY_FILTER".toList ∧
        "PROXY_UPSTREAM_PASSWORD".toList ≠ "PROXY_FILTER".toList := by decide
    rw [rpcProxyValue, rpcProxyValue, if_neg hfilter.1, if_neg hfilter.2, huserKey, hpasswordKey,
      if_pos h.userTruthy, if_pos h.passwordTruthy]
    exact ⟨huserText, hpasswordText⟩
  have hassigned : ∀ name value, ((rpcProxyEnv.drop 1).take 6).findRev? (·.1 == name) = some (name, value) →
      (∀ b ∈ readFile (.preValue "PROXY_EXTEND_ALLOWLIST".toList [])
        (extendText config ++ '\n' :: lines (closingLines config)), b.1 ≠ name) →
      variableValue name (renderRpcProxyEnv config) =
        some (stripBy isBlank (rpcProxyValue config name value)) := by
    intro name value hname hbehind
    have hinner : ((innerLines config).map fun e => (e.1, stripBy isBlank e.2)).findRev? (·.1 == name) =
        some (name, stripBy isBlank (rpcProxyValue config name value)) := by
      rw [innerLines, List.map_map, List.findRev?_eq_find?_reverse, ← List.map_reverse, List.find?_map]
      rw [List.findRev?_eq_find?_reverse] at hname
      exact congrArg _ hname
    rw [variableValue, hread, findRev_between hinner fun b hb => beq_eq_false_iff_ne.2 (hbehind b hb)]
    rfl
  rw [proxyCredentials, hassigned "PROXY_UPSTREAM_USER".toList "default".toList (by decide)
      fun b hb => (hothers.extend b hb).1,
    hassigned "PROXY_UPSTREAM_PASSWORD".toList "default".toList (by decide) fun b hb => (hothers.extend b hb).2,
    hvalues.1, hvalues.2, huser.strip, hpassword.strip]

theorem mem_of_receivedOption {name v : Str} {arguments : List Str}
    (h : receivedOption name arguments = some v) :
    ∃ w ∈ arguments, optionName w = some name ∧ (cutAt (· == '=') w).2 = some v := by
  obtain ⟨w, hw, hvalue⟩ := Option.bind_eq_some_iff.1 h
  have hmem := (List.mem_filter.1 (List.mem_of_getLast? hw)).1
  unfold optionValue at hvalue
  split at hvalue
  next hname => exact ⟨w, hmem, hname, hvalue⟩
  next => cases hvalue

theorem wordSpecials_cons (w : Str) (ws : List Str) :
    wordSpecials (w :: ws) = specials w + wordSpecials ws := by
  simp [wordSpecials]

theorem specials_le {ws : List Str} {w : Str} (hw : w ∈ ws) : specials w ≤ wordSpecials ws := by
  induction ws with
  | nil => cases hw
  | cons u ws ih =>
    rw [wordSpecials_cons]
    rcases List.mem_cons.1 hw with rfl | hw
    · omega
    · have hrest := ih hw
      omega

/-- Two words hold no more special characters than all. -/
theorem specials_add_le {ws : List Str} {w w' : Str} (hw : w ∈ ws) (hw' : w' ∈ ws) (hne : w ≠ w') :
    specials w + specials w' ≤ wordSpecials ws := by
  induction ws with
  | nil => cases hw
  | cons u ws ih =>
    rw [wordSpecials_cons]
    rcases List.mem_cons.1 hw with rfl | hlater
    · have hrest := specials_le ((List.mem_cons.1 hw').resolve_left hne.symm)
      omega
    · rcases List.mem_cons.1 hw' with rfl | hlater'
      · have hrest := specials_le hlater
        omega
      · have hrest := ih hlater hlater'
        omega

theorem credentialArgs_specials (h : Secured config user password) :
    specials (credentialArgs config) = specials user + specials password := by
  have hflags : specials " -rpcuser=".toList = 0 ∧ specials " -rpcpassword=".toList = 0 := by decide
  rw [h.credentialArgs, specials_append, specials_append, specials_append, hflags.1, hflags.2]
  omega

/-- Between the quotes of the charm, what is read behind its tokens is what a file with the credentials alone says. -/
theorem assignedBehind_quoted (hquoted : ∃ v, fileAtPins config = .doubleQuote variableName v) :
    assignedBehind config = readFile .preKey (variableName ++ "=\"".toList ++ credentialArgs config ++ ['"']) := by
  have hname : variableName ≠ [] ∧ IsName variableName := by
    unfold IsName
    decide
  obtain ⟨v, hv⟩ := hquoted
  rw [assignedBehind, hv, List.append_assoc, List.append_assoc]
  exact (readFile_name hname.1 hname.2 ('"' :: (credentialArgs config ++ ['"']))).symm

theorem specials_valueBehind (hquoted : ∃ v, fileAtPins config = .doubleQuote variableName v) :
    specials ((reassigned config).getD (restOfValue config)) ≤ specials (credentialArgs config) := by
  have hname : variableName ≠ [] ∧ IsName variableName := by
    unfold IsName
    decide
  refine specials_variableValue_quoted hname.1 hname.2 ?_
  obtain ⟨v, later, hread, -⟩ := variableValue_own (serviceArguments_eq config) (bareText_ownTokens config)
  have hbehind : assignedBehind config = (variableName, v) :: later := hread
  rw [variableValue, ← assignedBehind_quoted hquoted, reassigned, restOfValue, hbehind, List.findRev?_eq_find?_reverse,
    List.reverse_cons, List.find?_append, List.tail_cons, List.findRev?_eq_find?_reverse]
  cases later.reverse.find? fun a => a.1 == variableName <;> simp

/-- The splitter takes at least one special character away from behind the charm's tokens. -/
theorem wordSpecials_behind (config : Config) : wordSpecials (behindWords config) ≤ specials (restOfValue config) ∧
    (specials (restOfValue config) ≠ 0 → wordSpecials (behindWords config) < specials (restOfValue config)) := by
  have htrails := restOfValue_trails config
  generalize restOfValue config = t at htrails
  generalize behindWords config = ws at htrails
  cases htrails with
  | nil => exact ⟨Nat.le_refl 0, fun h => absurd rfl h⟩
  | quote => decide
  | blank rest =>
    have hblank : specials (' ' :: rest) = specials rest := by
      rw [specials_cons]
      exact Nat.zero_add _
    rw [hblank]
    exact ⟨specials_splitWords_le rest, specials_splitWords_lt⟩

theorem specials_of_optionValue {v w : Str} (hvalue : (cutAt (· == '=') w).2 = some v) :
    specials v ≤ specials w := by
  obtain ⟨front, hfront⟩ := cutAt_snd hvalue
  rw [hfront, specials_append]
  exact Nat.le_add_left _ _

/-- A node that gets both credentials as they are had no quote and no backslash to take away. -/
theorem credentialArgs_plain_of_node (h : Secured config user password) (hothers : Undisturbed config)
    (hunquoted : Unquoted config) (hnode : nodeCredentials config = ⟨some user, some password⟩) :
    Plain (credentialArgs config) := by
  obtain ⟨huser, hpassword⟩ := Credentials.mk.inj hnode
  obtain ⟨w, hw, hname, hvalue⟩ := mem_of_receivedOption huser
  obtain ⟨w', hw', hname', hvalue'⟩ := mem_of_receivedOption hpassword
  have hne : w ≠ w' := by
    rintro rfl
    rw [hname] at hname'
    exact absurd (Option.some.inj hname') (by decide)
  have hle := specials_of_optionValue hvalue
  have hle' := specials_of_optionValue hvalue'
  have hwritten := credentialArgs_specials h
  have hbehind := specials_valueBehind hunquoted.quoted
  rw [← specials_eq_zero]
  cases hre : reassigned config with
  | some v =>
    -- the whole command line comes from behind the charm's tokens
    have harguments : nodeArguments config = splitWords v := by
      rw [nodeArguments_swallowed, swallowedArguments, hre]
    rw [harguments] at hw hw'
    rw [hre, Option.getD_some] at hbehind
    have hboth := specials_add_le hw hw' hne
    have hkept := specials_splitWords_le v
    by_cases hzero : specials v = 0
    · omega
    · have hlost := specials_splitWords_lt hzero
      omega
  | none =>
    rw [hre, Option.getD_none] at hbehind
    obtain ⟨hkept, hlost⟩ := wordSpecials_behind config
    rw [nodeArguments_standing ⟨hothers.args, hre⟩] at hw hw'
    have hown : ∀ t ∈ ownTokens config, optionName t ≠ some "rpcuser".toList ∧
        optionName t ≠ some "rpcpassword".toList := by
      unfold ownTokens
      split <;> decide
    -- a credential that the operator's own argument gives holds nothing special
    have hplace : ∀ {u name}, u ∈ operatorWords config ++ (ownTokens config ++ behindWords config) →
        optionName u = some name → name = "rpcuser".toList ∨ name = "rpcpassword".toList →
          u ∈ behindWords config ∨ specials u = 0 := by
      intro u name hu hname hkind
      rcases List.mem_append.1 hu with hu | hu
      · refine .inr (specials_eq_zero.2 (hunquoted.words u hu ?_))
        rw [isOption, isOption, hname]
        rcases hkind with rfl | rfl <;> decide
      · rcases List.mem_append.1 hu with hu | hu
        · obtain ⟨hnotUser, hnotPassword⟩ := hown u hu
          rcases hkind with rfl | rfl
          · exact absurd hname hnotUser
          · exact absurd hname hnotPassword
        · exact .inl hu
    have hsum : specials w + specials w' ≤ wordSpecials (behindWords config) := by
      rcases hplace hw hname (.inl rfl) with hin | hzero
      · rcases hplace hw' hname' (.inr rfl) with hin' | hzero'
        · exact specials_add_le hin hin' hne
        · have hone := specials_le hin
          omega
      · rcases hplace hw' hname' (.inr rfl) with hin' | hzero'
        · have hone := specials_le hin'
          omega
        · omega
    by_cases hzero : specials (restOfValue config) = 0
    · omega
    · have hless := hlost hzero
      omega

theorem receivedOption_behind {name w : Str} {before behind : List Str} (hw : w ∈ behind)
    (hoption : isOption name w = true) : receivedOption name (before ++ behind) = receivedOption name behind := by
  have hne : behind.filter (isOption name) ≠ [] := List.ne_nil_of_mem (List.mem_filter.2 ⟨hw, hoption⟩)
  rw [receivedOption, List.filter_append, List.getLast?_append_of_ne_nil _ hne]
  rfl

/-- The first word of a flag with its credential is that flag. -/
theorem exists_flag {flag name : Str} (hflag : IsWord flag) (hname : ∀ w, isOption name (flag ++ w) = true) (s : Str) :
    ∃ w ∈ fieldsBy isBlank (flag ++ s), isOption name w = true := by
  obtain ⟨w, rest, heq⟩ := fieldsBy_append hflag.1 (fun c hc => (hflag.2 c hc).1) s
  exact ⟨flag ++ w, by rw [heq]; exact List.mem_cons_self, hname w⟩

theorem clean_of_nodeCredentials (h : Secured config user password) (hothers : Undisturbed config)
    (hunquoted : Unquoted config) (hnode : nodeCredentials config = ⟨some user, some password⟩) :
    Clean user ∧ Clean password := by
  have hplain := credentialArgs_plain_of_node h hothers hunquoted hnode
  have hzero := credentialArgs_specials h
  rw [specials_eq_zero.2 hplain] at hzero
  obtain ⟨huser, hpassword⟩ := Credentials.mk.inj hnode
  have hname : variableName ≠ [] ∧ IsName variableName := by
    unfold IsName
    decide
  have hbehind : assignedBehind config = [(variableName, credentialArgs config)] := by
    obtain ⟨v, hv⟩ := hunquoted.quoted
    have hassignment := assignment_name hname.2 (credentialArgs config)
    rw [assignedBehind, hv, settled, readFile_doubleQuote hplain, ← hassignment]
    rfl
  have hnone : reassigned config = none := by
    rw [reassigned, hbehind]
    rfl
  have hrest : restOfValue config = credentialArgs config := by
    rw [restOfValue, hbehind]
    rfl
  have hflags : IsWord "-rpcuser=".toList ∧ IsWord "-rpcpassword=".toList := by
    unfold IsWord
    decide
  have hwords : behindWords config = fieldsBy isBlank ("-rpcuser=".toList ++ user) ++
      fieldsBy isBlank ("-rpcpassword=".toList ++ password) := by
    have hsplit : credentialArgs config = ' ' ::
        ("-rpcuser=".toList ++ user ++ ' ' :: ("-rpcpassword=".toList ++ password)) := by
      rw [h.credentialArgs]
      simp
    have hplain' : Plain ("-rpcuser=".toList ++ user ++ ' ' :: ("-rpcpassword=".toList ++ password)) := by
      rw [hsplit] at hplain
      exact fun c hc => hplain c (List.mem_cons_of_mem _ hc)
    have hread : behindWords config =
        splitWords ("-rpcuser=".toList ++ user ++ ' ' :: ("-rpcpassword=".toList ++ password)) := by
      rw [behindWords, hrest, hsplit]
      rfl
    rw [hread, splitWords_plain hplain', fieldsBy_append_cons (by decide)]
  have hunsplit : ∀ {name w v}, w ∈ behindWords config → isOption name w = true →
      receivedOption name (nodeArguments config) = some v → ∀ c ∈ v, isBlank c = false := by
    intro name w v hw hoption hreceived
    rw [nodeArguments_standing ⟨hothers.args, hnone⟩, ← List.append_assoc, receivedOption_behind hw hoption]
      at hreceived
    obtain ⟨u, hu, -, hcut⟩ := mem_of_receivedOption hreceived
    obtain ⟨front, rfl⟩ := cutAt_snd hcut
    rw [hwords] at hu
    rcases List.mem_append.1 hu with hu | hu
    · exact fun c hc => (fieldsBy_spec hu).2 c (List.mem_append_right _ hc)
    · exact fun c hc => (fieldsBy_spec hu).2 c (List.mem_append_right _ hc)
  have hkinds : ∀ w, isOption "rpcuser".toList ("-rpcuser=".toList ++ w) = true ∧
      isOption "rpcpassword".toList ("-rpcpassword=".toList ++ w) = true := by
    intro w
    have hu : optionName ("-rpcuser=".toList ++ w) = some "rpcuser".toList := rfl
    have hp : optionName ("-rpcpassword=".toList ++ w) = some "rpcpassword".toList := rfl
    rw [isOption, isOption, hu, hp]
    decide
  obtain ⟨w, hw, hoption⟩ := exists_flag hflags.1 (fun w => (hkinds w).1) user
  obtain ⟨w', hw', hoption'⟩ := exists_flag hflags.2 (fun w => (hkinds w).2) password
  refine ⟨⟨specials_eq_zero.1 (by omega), ?_⟩, specials_eq_zero.1 (by omega), ?_⟩
  · exact hunsplit (by rw [hwords]; exact List.mem_append_left _ hw) hoption huser
  · exact hunsplit (by rw [hwords]; exact List.mem_append_right _ hw') hoption' hpassword

theorem latin1_cons (c : Char) (s : Str) : latin1 (c :: s) =
    (if c.toNat < 256 then some c.toUInt8 else none).bind fun b => (latin1 s).map (b :: ·) := by
  rw [latin1, List.mapM_cons, latin1]
  cases s.mapM fun c => if c.toNat < 256 then some c.toUInt8 else none <;> rfl

theorem latin1_ascii {s : Str} (hs : Ascii s) : latin1 s = some (utf8 s) := by
  induction s with
  | nil => rfl
  | cons c s ih =>
    have hc := hs c List.mem_cons_self
    have hsize : c.utf8Size = 1 := Char.utf8Size_eq_one_iff.2 (by
      rw [UInt32.le_iff_toNat_le]
      exact Nat.le_of_lt_succ hc)
    rw [latin1_cons, if_pos (by omega), Option.bind_some, ih fun c hc => hs c (List.mem_cons_of_mem _ hc),
      Option.map_some, utf8, utf8, List.flatMap_cons, String.utf8EncodeChar_eq_singleton hsize]
    rfl

theorem length_latin1 {s : Str} {b : Bytes} (h : latin1 s = some b) : b.length = s.length := by
  induction s generalizing b with
  | nil =>
    obtain rfl := Option.some.inj h
    rfl
  | cons c s ih =>
    rw [latin1_cons] at h
    obtain ⟨_, -, hrest⟩ := Option.bind_eq_some_iff.1 h
    obtain ⟨rest, hs, rfl⟩ := Option.map_eq_some_iff.1 hrest
    rw [List.length_cons, List.length_cons, ih hs]

theorem length_utf8 (s : Str) : s.length ≤ (utf8 s).length ∧ ((utf8 s).length = s.length → Ascii s) := by
  induction s with
  | nil => exact ⟨Nat.le_refl 0, nofun⟩
  | cons c s ih =>
    have hcons : (utf8 (c :: s)).length = c.utf8Size + (utf8 s).length := by
      rw [utf8, List.flatMap_cons, List.length_append, String.length_utf8EncodeChar, ← utf8]
    have hsize := c.utf8Size_pos
    obtain ⟨hle, hascii⟩ := ih
    rw [hcons, List.length_cons]
    refine ⟨by omega, fun heq => ?_⟩
    have hone : c.val ≤ 127 := Char.utf8Size_eq_one_iff.1 (by omega)
    rw [UInt32.le_iff_toNat_le] at hone
    intro d hd
    rcases List.mem_cons.1 hd with rfl | hd
    · exact Nat.lt_succ_of_le hone
    · exact hascii (by omega) d hd

/-- Beyond ASCII, Latin-1 has fewer bytes than UTF-8 or none at all. -/
theorem probe_iff (h : Secured config user password) :
    probeCredentials config = some (utf8 user ++ utf8 [':'] ++ utf8 password) ↔ Ascii user ∧ Ascii password := by
  have htexts : (config .rpcUser).orEmpty = user ∧ (config .rpcPassword).orEmpty = password := by
    rw [Value.orEmpty, Value.orEmpty, if_pos h.userTruthy, if_pos h.passwordTruthy, h.userOption, h.passwordOption]
    exact ⟨rfl, rfl⟩
  rw [probeCredentials, htexts.1, htexts.2]
  constructor
  · intro hsent
    obtain ⟨u, hu, hsent⟩ := Option.bind_eq_some_iff.1 hsent
    obtain ⟨p, hp, hsent⟩ := Option.bind_eq_some_iff.1 hsent
    have hlength := congrArg List.length (Option.some.inj hsent)
    simp only [List.length_append, length_latin1 hu, length_latin1 hp] at hlength
    obtain ⟨huser, huserAscii⟩ := length_utf8 user
    obtain ⟨hpassword, hpasswordAscii⟩ := length_utf8 password
    exact ⟨huserAscii (by omega), hpasswordAscii (by omega)⟩
  · rintro ⟨huser, hpassword⟩
    rw [latin1_ascii huser, latin1_ascii hpassword]
    rfl

end

def withCredentials (user password : Str) : Config :=
  Function.update (Function.update (fun _ => .none) .rpcUser (.str user)) .rpcPassword
    (.str password)

theorem secured_withCredentials {user password : Str} (huser : user ≠ [])
    (hpassword : password ≠ []) : Secured (withCredentials user password) user password :=
  ⟨rfl, rfl, huser, hpassword⟩

theorem undisturbed_withCredentials (user password : Str) : Undisturbed (withCredentials user password) where
  args := rfl
  listen := rfl
  extend := by
    have hextend : extendText (withCredentials user password) = [] := rfl
    have hclosing : closingLines (withCredentials user password) =
        [("PROXY_FILTER".toList, "false".toList), ("PROXY_LOG_LEVEL".toList, "info".toList)] := rfl
    rw [hextend, hclosing]
    decide +kernel

theorem unquoted_withCredentials (user password : Str) : Unquoted (withCredentials user password) where
  quoted := ⟨[], rfl⟩
  words := nofun

end BitcoinRpcOperator.CredentialAgreement
