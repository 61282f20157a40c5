import BitcoinRpcOperator.ServiceConfiguration
import BitcoinRpcOperator.SystemdArguments

/-!
# The loopback pin, from the options to the argument vector

The charm hardens its own tokens of `service-args` and writes them between double quotes;
systemd reads the file and splits the value again. Without quotes and backslashes both
find the same tokens, and only white space in the credentials can add an option.
-/

namespace BitcoinRpcOperator.LoopbackPin
open Text ServiceConfiguration SystemdArguments

def variableName : Str := "BITCOIND_CLI_ARGS".toList

/-- The arguments of `ExecStart=/home/bitcoin/bitcoind $BITCOIND_CLI_ARGS`. -/
def nodeArguments (config : Config) : List Str :=
  splitWords ((variableValue variableName (renderNodeEnv config)).getD [])

/-- The option an argument sets: what follows one or two dashes up to `=`. -/
def optionName : Str → Option Str
  | '-' :: '-' :: rest => some (cutAt (· == '=') rest).1
  | '-' :: rest => some (cutAt (· == '=') rest).1
  | _ => none

def isOption (name : Str) (argument : Str) : Bool :=
  optionName argument == some name || optionName argument == some ("no".toList ++ name)

/-- Bound to the loopback addresses and the pinned port, with nobody else let in. -/
structure LoopbackPinned (arguments : List Str) : Prop where
  allowIp : arguments.filter (isOption "rpcallowip".toList) = []
  bind : arguments.filter (isOption "rpcbind".toList) =
    ["-rpcbind=127.0.0.1".toList, "-rpcbind=[::1]".toList]
  port : arguments.filter (isOption "rpcport".toList) = ["-rpcport=".toList ++ bitcoindRpcPort]

instance (arguments : List Str) : Decidable (LoopbackPinned arguments) :=
  decidable_of_iff (arguments.filter (isOption "rpcallowip".toList) = [] ∧
    arguments.filter (isOption "rpcbind".toList) =
      ["-rpcbind=127.0.0.1".toList, "-rpcbind=[::1]".toList] ∧
    arguments.filter (isOption "rpcport".toList) = ["-rpcport=".toList ++ bitcoindRpcPort])
    ⟨fun h => ⟨h.1, h.2.1, h.2.2⟩, fun h => ⟨h.1, h.2, h.3⟩⟩

theorem isSpace_of_isBlank {c : Char} (h : isBlank c = true) : isSpace c = true := by
  simp only [isBlank, Bool.or_eq_true, beq_iff_eq] at h
  rcases h with ((rfl | rfl) | rfl) | rfl <;> decide

theorem hardenedTokens_spec {args t : Str} {config : Config} (ht : t ∈ hardenedTokens args config) :
    t ∈ words args ∨ t ∈ pinnedTokens ∨ t = "-disablewallet".toList := by
  unfold hardenedTokens at ht
  simp only at ht
  split at ht
  · rcases List.mem_append.1 ht with ht | ht
    · rcases List.mem_append.1 (List.mem_filter.1 ht).1 with ht | ht
      · exact .inl (List.mem_filter.1 ht).1
      · exact .inr (.inl ht)
    · exact .inr (.inr (List.mem_singleton.1 ht))
  · rcases List.mem_append.1 ht with ht | ht
    · exact .inl (List.mem_filter.1 ht).1
    · exact .inr (.inl ht)

/-- Tokens hold nothing that systemd splits at. -/
theorem hardenedTokens_unsplit {args t : Str} {config : Config}
    (ht : t ∈ hardenedTokens args config) : t ≠ [] ∧ ∀ c ∈ t, isBlank c = false := by
  rcases hardenedTokens_spec ht with ht | ht | rfl
  · obtain ⟨hne, hspace⟩ := fieldsBy_spec ht
    refine ⟨hne, fun c hc => ?_⟩
    by_contra hblank
    have := isSpace_of_isBlank (by simpa using hblank)
    rw [hspace c hc] at this
    cases this
  · have hpinned : ∀ t ∈ pinnedTokens, t ≠ [] ∧ ∀ c ∈ t, isBlank c = false := by decide
    exact hpinned t ht
  · decide

/-- What the charm writes needs no quoting. -/
structure PlainOptions (config : Config) : Prop where
  args : Plain (config .serviceArgs).orEmpty
  user : (config .rpcUser).truthy = true → (config .rpcPassword).truthy = true →
    Plain (config .rpcUser).toText
  password : (config .rpcUser).truthy = true → (config .rpcPassword).truthy = true →
    Plain (config .rpcPassword).toText

theorem hardenServiceArgs_plain {args : Str} (h : Plain args) (config : Config) :
    Plain (hardenServiceArgs args config) := by
  intro c hc
  rcases mem_unwords hc with rfl | ⟨t, ht, hc⟩
  · decide
  rcases hardenedTokens_spec ht with ht | ht | rfl
  · exact h c (mem_of_mem_fieldsBy ht hc)
  · have hpinned : ∀ t ∈ pinnedTokens, ∀ c ∈ t, c ≠ '"' ∧ c ≠ '\'' ∧ c ≠ '\\' := by decide
    exact hpinned t ht c hc
  · have hwallet : ∀ c ∈ "-disablewallet".toList, c ≠ '"' ∧ c ≠ '\'' ∧ c ≠ '\\' := by decide
    exact hwallet c hc

theorem credentialArgs_plain {config : Config} (h : PlainOptions config) :
    Plain (credentialArgs config) := by
  unfold credentialArgs
  split
  · rename_i hboth
    obtain ⟨hu, hp⟩ := Bool.and_eq_true_iff.1 hboth
    have huser : Plain " -rpcuser=".toList := by
      unfold Plain
      decide
    have hpassword : Plain " -rpcpassword=".toList := by
      unfold Plain
      decide
    exact ((huser.append (h.user hu hp)).append hpassword).append (h.password hu hp)
  · intro c hc
    cases hc

def credentialWords (config : Config) : List Str :=
  if (config .rpcUser).truthy && (config .rpcPassword).truthy then
    fieldsBy isBlank ("-rpcuser=".toList ++ (config .rpcUser).toText) ++
      fieldsBy isBlank ("-rpcpassword=".toList ++ (config .rpcPassword).toText)
  else []

/-- Words that white space in a credential adds to the command line. -/
def injectedWords (config : Config) : List Str :=
  if (config .rpcUser).truthy && (config .rpcPassword).truthy then
    (fieldsBy isBlank ("-rpcuser=".toList ++ (config .rpcUser).toText)).tail ++
      (fieldsBy isBlank ("-rpcpassword=".toList ++ (config .rpcPassword).toText)).tail
  else []

theorem fieldsBy_serviceArguments (config : Config) :
    fieldsBy isBlank (serviceArguments config) =
      hardenedTokens (config .serviceArgs).orEmpty config ++ credentialWords config := by
  have htokens : fieldsBy isBlank (hardenServiceArgs (config .serviceArgs).orEmpty config) =
      hardenedTokens (config .serviceArgs).orEmpty config :=
    fieldsBy_unwords (by decide) fun t ht => hardenedTokens_unsplit ht
  unfold serviceArguments credentialArgs credentialWords
  split
  · have hsplit : hardenServiceArgs (config .serviceArgs).orEmpty config ++
        (" -rpcuser=".toList ++ (config .rpcUser).toText ++ " -rpcpassword=".toList ++
          (config .rpcPassword).toText) =
        hardenServiceArgs (config .serviceArgs).orEmpty config ++ ' ' ::
          ("-rpcuser=".toList ++ (config .rpcUser).toText ++ ' ' ::
            ("-rpcpassword=".toList ++ (config .rpcPassword).toText)) := by
      simp
    rw [hsplit, fieldsBy_append_cons (by decide), fieldsBy_append_cons (by decide), htokens]
  · rw [List.append_nil, List.append_nil, htokens]

theorem nodeArguments_eq {config : Config} (h : PlainOptions config) :
    nodeArguments config =
      hardenedTokens (config .serviceArgs).orEmpty config ++ credentialWords config := by
  have hplain : Plain (serviceArguments config) :=
    (hardenServiceArgs_plain h.args config).append (credentialArgs_plain h)
  have hname : IsName variableName := by
    unfold IsName
    decide
  have hvalue : variableValue variableName (renderNodeEnv config) = some (serviceArguments config) :=
    variableValue_quoted (by decide) hname hplain
  rw [nodeArguments, hvalue, Option.getD_some, splitWords_plain hplain, fieldsBy_serviceArguments]

/-- The dashes of an argument are followed by its option's name. -/
theorem lstrip_of_optionName {t n : Str} (h : optionName t = some n) (hne : n ≠ [])
    (hdash : ∀ c ∈ n, c ≠ '-') :
    (cutAt (· == '=') (lstripBy (· == '-') t)).1 = n := by
  have stripped : ∀ rest, (cutAt (· == '=') rest).1 = n → lstripBy (· == '-') rest = rest := by
    intro rest hrest
    rw [cutAt_fst] at hrest
    cases rest with
    | nil => rfl
    | cons c rest =>
      rw [List.takeWhile_cons] at hrest
      split at hrest
      · have hc := hdash c (by rw [← hrest]; simp)
        simp [lstripBy, hc]
      · exact absurd hrest.symm hne
  unfold optionName at h
  split at h
  · rename_i rest
    have hrest := Option.some.inj h
    have hdashes : lstripBy (· == '-') ('-' :: '-' :: rest) = lstripBy (· == '-') rest := rfl
    rw [hdashes, stripped rest hrest, hrest]
  · rename_i rest _
    have hrest := Option.some.inj h
    have hdashes : lstripBy (· == '-') ('-' :: rest) = lstripBy (· == '-') rest := rfl
    rw [hdashes, stripped rest hrest, hrest]
  · cases h

theorem optName_of_isOption {opt t : Str} (hopt : opt ∈ rpcBindOpts) (h : isOption opt t = true) :
    optName t = opt := by
  have names : ∀ opt ∈ rpcBindOpts, ∀ n ∈ [opt, "no".toList ++ opt], n ≠ [] ∧
      (∀ c ∈ n, c ≠ '-') ∧
      (if "no".toList.isPrefixOf n && 2 < n.length then n.drop 2 else n) = opt := by decide
  obtain ⟨n, hn, ht⟩ : ∃ n ∈ [opt, "no".toList ++ opt], optionName t = some n := by
    simp only [isOption, Bool.or_eq_true, beq_iff_eq] at h
    rcases h with h | h
    · exact ⟨opt, by simp, h⟩
    · exact ⟨_, by simp, h⟩
  obtain ⟨hne, hdash, hname⟩ := names opt hopt n hn
  rw [optName, lstrip_of_optionName ht hne hdash]
  exact hname

/-- The hardened tokens hold the pinned options of each kind and no others. -/
theorem filter_hardenedTokens {opt : Str} (hopt : opt ∈ rpcBindOpts) (args : Str) (config : Config) :
    (hardenedTokens args config).filter (isOption opt) = pinnedTokens.filter (isOption opt) := by
  have hkept : ((words args).filter fun t => optName t ∉ rpcBindOpts).filter (isOption opt) = [] := by
    rw [List.filter_eq_nil_iff]
    intro t ht hoption
    have hnot := (List.mem_filter.1 ht).2
    rw [optName_of_isOption hopt hoption] at hnot
    simp [hopt] at hnot
  have htokens : ((words args).filter (fun t => optName t ∉ rpcBindOpts) ++ pinnedTokens).filter
      (isOption opt) = pinnedTokens.filter (isOption opt) := by
    rw [List.filter_append, hkept, List.nil_append]
  have disjoint : ∀ opt ∈ rpcBindOpts, opt ∉ walletOpts := by decide
  have disablewallet : ∀ opt ∈ rpcBindOpts, isOption opt "-disablewallet".toList = false := by decide
  unfold hardenedTokens
  simp only
  split
  · rw [List.filter_append, List.filter_singleton, disablewallet opt hopt, List.filter_filter]
    have hboth : ∀ t, (isOption opt t && decide (optName t ∉ walletOpts)) = isOption opt t := by
      intro t
      cases hoption : isOption opt t with
      | false => rfl
      | true =>
        have hnot := disjoint opt hopt
        rw [← optName_of_isOption hopt hoption] at hnot
        simp [hnot]
    simp only [hboth]
    rw [htokens]
    simp
  · exact htokens

/-- The first word of a credential is its own flag. -/
theorem filter_credential {flag : Str} (hne : flag ≠ []) (hblank : ∀ c ∈ flag, isBlank c = false)
    {opt : Str} (hflag : ∀ w, isOption opt (flag ++ w) = false) (value : Str) :
    (fieldsBy isBlank (flag ++ value)).filter (isOption opt) =
      (fieldsBy isBlank (flag ++ value)).tail.filter (isOption opt) := by
  obtain ⟨w, rest, heq⟩ := fieldsBy_append hne hblank value
  rw [heq, List.filter_cons, hflag w]
  rfl

theorem filter_credentialWords {opt : Str} (hopt : opt ∈ rpcBindOpts) (config : Config) :
    (credentialWords config).filter (isOption opt) = (injectedWords config).filter (isOption opt) := by
  have names : ∀ opt ∈ rpcBindOpts, ∀ n ∈ ["rpcuser".toList, "rpcpassword".toList],
      n ≠ opt ∧ n ≠ "no".toList ++ opt := by decide
  have user : ∀ w, isOption opt ("-rpcuser=".toList ++ w) = false := by
    intro w
    have hname : optionName ("-rpcuser=".toList ++ w) = some "rpcuser".toList := rfl
    obtain ⟨h₁, h₂⟩ := names opt hopt "rpcuser".toList (by simp)
    rw [isOption, hname, Bool.or_eq_false_iff, beq_eq_false_iff_ne, beq_eq_false_iff_ne]
    exact ⟨fun h => h₁ (Option.some.inj h), fun h => h₂ (Option.some.inj h)⟩
  have password : ∀ w, isOption opt ("-rpcpassword=".toList ++ w) = false := by
    intro w
    have hname : optionName ("-rpcpassword=".toList ++ w) = some "rpcpassword".toList := rfl
    obtain ⟨h₁, h₂⟩ := names opt hopt "rpcpassword".toList (by simp)
    rw [isOption, hname, Bool.or_eq_false_iff, beq_eq_false_iff_ne, beq_eq_false_iff_ne]
    exact ⟨fun h => h₁ (Option.some.inj h), fun h => h₂ (Option.some.inj h)⟩
  unfold credentialWords injectedWords
  split
  · rw [List.filter_append, List.filter_append, filter_credential (by decide) (by decide) user,
      filter_credential (by decide) (by decide) password]
  · rfl

theorem filter_nodeArguments {config : Config} (h : PlainOptions config) {opt : Str}
    (hopt : opt ∈ rpcBindOpts) : (nodeArguments config).filter (isOption opt) =
      pinnedTokens.filter (isOption opt) ++ (injectedWords config).filter (isOption opt) := by
  rw [nodeArguments_eq h, List.filter_append, filter_hardenedTokens hopt, filter_credentialWords hopt]

def withArguments (args : Str) : Config := Function.update (fun _ => .none) .serviceArgs (.str args)

end BitcoinRpcOperator.LoopbackPin
