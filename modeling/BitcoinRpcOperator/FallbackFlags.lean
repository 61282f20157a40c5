import BitcoinRpcOperator.EffectiveFlags
import BitcoinRpcOperator.LoopbackPin

/-!
# Flags of the process and flags of the environment file

`build_runtime_metadata` reads the flags off the command line of the running process, and
off the environment file when there is none. The file is an assignment, which the shell
rules take for one word that is no option.
-/

namespace BitcoinRpcOperator.FallbackFlags
open Text Dictionaries ServiceConfiguration SystemdArguments LoopbackPin ShellWords EffectiveFlags

/-- The path in `ExecStart` of the node's unit. -/
def binaryPath : Str := "/home/bitcoin/bitcoind".toList

/-- `/proc/<pid>/cmdline`: a NUL byte ends each argument. -/
def procText (arguments : List Str) : Str := arguments.flatMap fun a => a ++ ['\x00']

/-- `get_client_proc_cmdline` of a running process. -/
def clientProcCmdline (arguments : List Str) : Str := unwords ((procText arguments).splitOn '\x00')

def serviceArgsText (file : Str) : Str := strip file

/-- The command line of `build_runtime_metadata`: empty output of the first source means
that there is no process. -/
def runtimeCmdline (process file : Str) : Str :=
  if process = [] then serviceArgsText file else process

/-- The flags while the node runs with its environment file, and while it does not run. -/
def processFlags (beyond : Char → Str) (config : Config) : Flags :=
  parseEffectiveFlags beyond (runtimeCmdline
    (clientProcCmdline (binaryPath :: nodeArguments config)) (renderNodeEnv config))

def fallbackFlags (beyond : Char → Str) (config : Config) : Flags :=
  parseEffectiveFlags beyond (runtimeCmdline [] (renderNodeEnv config))

/-- Both give every option the same values. -/
def FlagsAgree (beyond : Char → Str) (config : Config) : Prop :=
  ∀ name, (fallbackFlags beyond config).get name = (processFlags beyond config).get name

/-- Neither quotes nor backslashes nor NUL, which is the control character that matters. -/
def Clean (s : Str) : Prop := Plain s ∧ '\x00' ∉ s

structure CleanOptions (config : Config) : Prop where
  args : Clean (config .serviceArgs).orEmpty
  user : Clean (config .rpcUser).toText
  password : Clean (config .rpcPassword).toText

theorem CleanOptions.plain {config : Config} (h : CleanOptions config) : PlainOptions config :=
  ⟨h.args.1, fun _ _ => h.user.1, fun _ _ => h.password.1⟩

def ownTexts : List Str :=
  [[' '], "-disablewallet".toList, " -rpcuser=".toList, " -rpcpassword=".toList] ++ pinnedTokens

theorem mem_serviceArguments {config : Config} {c : Char} (hc : c ∈ serviceArguments config) :
    (∃ t ∈ ownTexts, c ∈ t) ∨ c ∈ (config .serviceArgs).orEmpty ∨ c ∈ (config .rpcUser).toText ∨
      c ∈ (config .rpcPassword).toText := by
  rcases List.mem_append.1 hc with hc | hc
  · rcases mem_unwords hc with rfl | ⟨t, ht, hc⟩
    · exact .inl ⟨[' '], by decide, by decide⟩
    rcases hardenedTokens_spec ht with ht | ht | rfl
    · exact .inr (.inl (mem_of_mem_fieldsBy ht hc))
    · exact .inl ⟨t, List.mem_append_right _ ht, hc⟩
    · exact .inl ⟨_, by decide, hc⟩
  · unfold credentialArgs at hc
    split at hc
    · simp only [List.mem_append] at hc
      rcases hc with ((hc | hc) | hc) | hc
      · exact .inl ⟨_, by decide, hc⟩
      · exact .inr (.inr (.inl hc))
      · exact .inl ⟨_, by decide, hc⟩
      · exact .inr (.inr (.inr hc))
    · cases hc

theorem serviceArguments_clean {config : Config} (h : CleanOptions config) :
    Clean (serviceArguments config) := by
  constructor
  · exact (hardenServiceArgs_plain h.args.1 config).append (credentialArgs_plain h.plain)
  · intro hc
    rcases mem_serviceArguments hc with ⟨t, ht, hc⟩ | hc | hc | hc
    · have hown : ∀ t ∈ ownTexts, '\x00' ∉ t := by decide
      exact hown t ht hc
    · exact h.args.2 hc
    · exact h.user.2 hc
    · exact h.password.2 hc

theorem splitOn_procText {arguments : List Str} (h : ∀ a ∈ arguments, '\x00' ∉ a) :
    (procText arguments).splitOn '\x00' = arguments ++ [[]] := by
  induction arguments with
  | nil => rfl
  | cons a arguments ih =>
    have hrest := ih fun b hb => h b (List.mem_cons_of_mem _ hb)
    have ha : a.splitOnP (· == '\x00') = [a] := by
      apply List.splitOnP_eq_singleton
      intro c hc
      rw [beq_eq_false_iff_ne]
      rintro rfl
      exact h a List.mem_cons_self hc
    have htext : procText (a :: arguments) = a ++ '\x00' :: procText arguments := by
      simp [procText]
    rw [htext, List.splitOn, List.splitOnP_append_cons a _ (by rfl), ha]
    exact congrArg (a :: ·) hrest

/-- The words of the command line are the arguments. -/
theorem shlexSplit_clientProcCmdline {arguments : List Str} (hne : arguments ≠ [])
    (h : ∀ a ∈ arguments, a ≠ [] ∧ Clean a ∧ ∀ c ∈ a, isBlank c = false) :
    shlexSplit (clientProcCmdline arguments) = some arguments := by
  have hjoined : clientProcCmdline arguments = unwords arguments ++ [' '] := by
    rw [clientProcCmdline, splitOn_procText fun a ha => (h a ha).2.1.2,
      unwords_append hne (by simp), unwords_singleton]
  have hplain : Plain (unwords arguments ++ [' ']) := by
    apply Plain.append
    · intro c hc
      rcases mem_unwords hc with rfl | ⟨a, ha, hc⟩
      · decide
      · exact (h a ha).2.1.1 c hc
    · unfold Plain
      decide
  have hwords : fieldsBy isBlank (unwords arguments) = arguments :=
    fieldsBy_unwords (by decide) fun a ha => ⟨(h a ha).1, (h a ha).2.2⟩
  rw [hjoined, shlexSplit_plain hplain, fieldsBy_append_cons (by decide), hwords, fieldsBy_nil,
    List.append_nil]

theorem nodeArguments_spec {config : Config} (h : CleanOptions config) {a : Str}
    (ha : a ∈ binaryPath :: nodeArguments config) :
    a ≠ [] ∧ Clean a ∧ ∀ c ∈ a, isBlank c = false := by
  rcases List.mem_cons.1 ha with rfl | ha
  · unfold Clean Plain
    decide
  · rw [nodeArguments_eq h.plain, ← fieldsBy_serviceArguments] at ha
    obtain ⟨hne, hblank⟩ := fieldsBy_spec ha
    obtain ⟨hplain, hnul⟩ := serviceArguments_clean h
    refine ⟨hne, ⟨?_, ?_⟩, hblank⟩
    · intro c hc
      exact hplain c (mem_of_mem_fieldsBy ha hc)
    · intro hc
      exact hnul (mem_of_mem_fieldsBy ha hc)

/-- An option with a value occurs, whatever comes before it. -/
theorem mem_occurrences {beyond : Char → Str} {t name value : Str} (hflag : isFlag t)
    (hcut : cutAt (· == '=') (lstripBy isDash t) = (name, some value)) {tokens : List Str}
    (ht : t ∈ tokens) : (casefold beyond name, value) ∈ occurrences beyond tokens := by
  fun_induction occurrences beyond tokens with
  | case1 => cases ht
  | case2 token rest _ _ _ hvalue ih =>
    rcases List.mem_cons.1 ht with rfl | ht
    · rw [hcut] at hvalue
      cases hvalue
      exact List.mem_cons_self
    · exact List.mem_cons_of_mem _ (ih ht)
  | case3 token _ raw hbare next later _ ih =>
    rcases List.mem_cons.1 ht with rfl | ht
    · rw [hcut] at hbare
      cases hbare
    · exact List.mem_cons_of_mem _ (ih ht)
  | case4 token _ raw hbare next later hnext ih =>
    simp only [List.mem_cons] at ht
    rcases ht with rfl | rfl | ht
    · rw [hcut] at hbare
      cases hbare
    · exact absurd hflag hnext
    · exact List.mem_cons_of_mem _ (ih ht)
  | case5 token _ raw hbare =>
    rw [List.mem_singleton.1 ht, hbare] at hcut
    cases hcut
  | case6 token rest hnot ih =>
    rcases List.mem_cons.1 ht with rfl | ht
    · exact absurd hflag hnot
    · exact ih ht

/-- The process is always bound to the loopback addresses. -/
theorem processFlags_rpcbind (beyond : Char → Str) {config : Config} (h : CleanOptions config) :
    (processFlags beyond config).get "rpcbind".toList ≠ none := by
  have hsplit : shlexSplit (clientProcCmdline (binaryPath :: nodeArguments config)) =
      some (binaryPath :: nodeArguments config) :=
    shlexSplit_clientProcCmdline (by simp) fun a ha => nodeArguments_spec h ha
  have hprocess : clientProcCmdline (binaryPath :: nodeArguments config) ≠ [] := by
    intro hempty
    rw [hempty] at hsplit
    cases hsplit
  have hpinned : "-rpcbind=127.0.0.1".toList ∈ nodeArguments config := by
    have hfilter : "-rpcbind=127.0.0.1".toList ∈
        (nodeArguments config).filter (isOption "rpcbind".toList) := by
      rw [filter_nodeArguments h.plain (by decide)]
      exact List.mem_append_left _ (by decide)
    exact (List.mem_filter.1 hfilter).1
  have hoccurs : ("rpcbind".toList, "127.0.0.1".toList) ∈
      occurrences beyond (binaryPath :: nodeArguments config) :=
    mem_occurrences (by decide) rfl (List.mem_cons_of_mem binaryPath hpinned)
  have hvalue : "127.0.0.1".toList ∈ valuesOf "rpcbind".toList
      (occurrences beyond (binaryPath :: nodeArguments config)) :=
    List.mem_map.2 ⟨_, List.mem_filter.2 ⟨hoccurs, decide_eq_true rfl⟩, rfl⟩
  rw [processFlags, runtimeCmdline, if_neg hprocess, parseEffectiveFlags, hsplit, Option.getD_some,
    parseTokens_eq_addFlags, get_flags, if_neg (by decide)]
  intro hnone
  cases hvalues : valuesOf "rpcbind".toList
      (occurrences beyond (binaryPath :: nodeArguments config)) with
  | nil =>
    rw [hvalues] at hvalue
    cases hvalue
  | cons v vs =>
    rw [hvalues] at hnone
    cases vs <;> cases hnone

theorem strip_renderNodeEnv (config : Config) :
    serviceArgsText (renderNodeEnv config) = renderNodeEnv config := by
  have hfront : (renderNodeEnv config).dropWhile isSpace = renderNodeEnv config :=
    List.dropWhile_cons_of_neg (by decide)
  rw [serviceArgsText, strip, stripBy, hfront]
  exact rdropWhile_append_cons (by decide) _ []

/-- The whole assignment is one word. -/
theorem shlexSplit_renderNodeEnv {config : Config} (h : CleanOptions config) :
    shlexSplit (renderNodeEnv config) =
      some ["BITCOIND_CLI_ARGS=".toList ++ serviceArguments config] := by
  have hname : Plain "ITCOIND_CLI_ARGS=".toList := by
    unfold Plain
    decide
  have htext : renderNodeEnv config = 'B' :: ("ITCOIND_CLI_ARGS=".toList ++
      '"' :: (serviceArguments config ++ ['"'])) := by
    have hquote : "BITCOIND_CLI_ARGS=\"".toList = 'B' :: ("ITCOIND_CLI_ARGS=".toList ++ ['"']) :=
      rfl
    unfold renderNodeEnv
    rw [hquote]
    simp only [List.cons_append, List.append_assoc, List.nil_append]
  calc shlexSplit (renderNodeEnv config)
      = readShell (.word ['B']) ("ITCOIND_CLI_ARGS=".toList ++
          '"' :: (serviceArguments config ++ ['"'])) := by
        rw [shlexSplit, htext, readShell, shellStep_between (by decide) (by decide)]
        exact Option.map_id'
    _ = readShell (.quoted '"' "BITCOIND_CLI_ARGS=".toList) (serviceArguments config ++ ['"']) := by
        rw [readShell_word hname (by decide), readShell]
        exact Option.map_id'
    _ = readShell (.quoted '"' ("BITCOIND_CLI_ARGS=".toList ++ serviceArguments config)) ['"'] :=
        readShell_quoted (serviceArguments_clean h).1 _ _
    _ = some ["BITCOIND_CLI_ARGS=".toList ++ serviceArguments config] := readShell_closing _

/-- Off the file no flag is ever read. -/
theorem fallbackFlags_empty (beyond : Char → Str) {config : Config} (h : CleanOptions config) :
    fallbackFlags beyond config = .empty := by
  rw [fallbackFlags, runtimeCmdline, if_pos rfl, strip_renderNodeEnv, parseEffectiveFlags,
    shlexSplit_renderNodeEnv h]
  rfl

theorem flags_never_agree (beyond : Char → Str) {config : Config} (h : CleanOptions config) :
    ¬ FlagsAgree beyond config := by
  intro hagree
  apply processFlags_rpcbind beyond h
  rw [← hagree, fallbackFlags_empty beyond h]
  rfl

def indexedNode : Config := fun
  | .serviceArgs => .str "-txindex -dbcache=450".toList
  | .rpcUser => .str "user".toList
  | .rpcPassword => .str "pass".toList
  | _ => .none

theorem indexedNode_clean : CleanOptions indexedNode := by
  constructor
  all_goals
    unfold Clean Plain
    decide

theorem flags_differ_indexedNode :
    ¬ ∀ config, CleanOptions config → FlagsAgree (fun c => [c]) config := by
  intro hall
  have hdbcache := hall indexedNode indexedNode_clean "dbcache".toList
  revert hdbcache
  decide +kernel

theorem flags_never_agree_indexedNode : ¬ FlagsAgree (fun c => [c]) indexedNode :=
  flags_never_agree _ indexedNode_clean

end BitcoinRpcOperator.FallbackFlags
