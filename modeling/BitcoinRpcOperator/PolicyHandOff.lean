import BitcoinRpcOperator.EnvironmentLines
import BitcoinRpcOperator.ProxyConfiguration

/-!
# The policy, from the options to the proxy

The charm writes the filter and the extra methods into an environment file, systemd strips
the values, and the proxy resolves, splits and trims them. On the way nothing is lost but
white space around the methods.
-/

namespace BitcoinRpcOperator.PolicyHandOff
open Text RaisedExceptions ServiceConfiguration SystemdArguments EnvironmentLines RpcRequests
open ProxyHandler ProxyConfiguration

theorem not_comma_of_blank {a : Str} (ha : ∀ c ∈ a, isBlank c) : ',' ∉ a := by
  intro hmem
  exact absurd (ha ',' hmem) (by decide)

theorem isSpaceRune_of_isBlank {c : Char} (h : isBlank c) : isSpaceRune c := by
  simp only [isBlank, Bool.or_eq_true, beq_iff_eq] at h
  rcases h with ((rfl | rfl) | rfl) | rfl <;> decide

/-- What systemd strips, trimming the entries would have removed. -/
theorem map_trim_splitOn_strip (s : Str) :
    ((stripBy isBlank s).splitOn ',').map trimRunes = (s.splitOn ',').map trimRunes := by
  have hfront : ∀ c ∈ s.takeWhile isBlank, isBlank c := fun c hc => List.mem_takeWhile_imp hc
  have hback : ∀ c ∈ (s.dropWhile isBlank).rtakeWhile isBlank, isBlank c :=
    fun c hc => List.mem_rtakeWhile_imp hc
  have hs : s = s.takeWhile isBlank ++
      (stripBy isBlank s ++ (s.dropWhile isBlank).rtakeWhile isBlank) := by
    conv_lhs => rw [← List.takeWhile_append_dropWhile (p := isBlank) (l := s)]
    rw [stripBy, List.rdropWhile_append_rtakeWhile]
  have hright := splitOn_append_right (not_comma_of_blank hback) (stripBy isBlank s)
  have hstep : ((stripBy isBlank s ++ (s.dropWhile isBlank).rtakeWhile isBlank).splitOn ',').map
      trimRunes = ((stripBy isBlank s).splitOn ',').map trimRunes := by
    rw [← List.forall₂_eq_eq_eq, List.forall₂_map_left_iff, List.forall₂_map_right_iff]
    refine hright.imp fun x y hxy => ?_
    rcases hxy with rfl | rfl
    · rfl
    · exact stripBy_pad (a := []) (by simp) (fun c hc => isSpaceRune_of_isBlank (hback c hc)) y
  conv_rhs => rw [hs, splitOn_append_left (not_comma_of_blank hfront)]
  rw [← hstep]
  cases (stripBy isBlank s ++ (s.dropWhile isBlank).rtakeWhile isBlank).splitOn ',' with
  | nil => rfl
  | cons x xs =>
    have htrim : trimRunes (s.takeWhile isBlank ++ x) = trimRunes x := by
      rw [← List.append_nil (s.takeWhile isBlank ++ x)]
      exact stripBy_pad (fun c hc => isSpaceRune_of_isBlank (hfront c hc)) (by simp) x
    rw [List.modifyHead_cons, List.map_cons, List.map_cons, htrim]

/-- The methods an allowlist built from a list of entries permits. -/
theorem permits_parseExtendList (csv m : Str) :
    (newAllowlist (parseExtendList csv)).permits m = true ↔
      m ∈ baseline ∨ m ≠ [] ∧ ∃ entry ∈ csv.splitOn ',', m = trimRunes entry := by
  have htrimmed : ∀ entry, trimRunes (trimRunes entry) = trimRunes entry :=
    stripBy_idem isSpaceRune
  rw [Allowlist.permits, decide_eq_true_iff]
  simp only [newAllowlist, parseExtendList, List.mem_append, List.mem_filter, List.mem_map,
    Bool.not_eq_true', List.isEmpty_eq_false_iff]
  refine or_congr_right ⟨?_, ?_⟩
  · rintro ⟨⟨t, ⟨⟨entry, hentry, rfl⟩, -⟩, rfl⟩, hne⟩
    rw [htrimmed] at hne ⊢
    exact ⟨hne, entry, hentry, rfl⟩
  · rintro ⟨hne, entry, hentry, rfl⟩
    exact ⟨⟨trimRunes entry, ⟨⟨entry, hentry, rfl⟩, hne⟩, htrimmed entry⟩, hne⟩

/-- Nothing in a text that needs quoting or starts another line. -/
def Unquoted (s : Str) : Prop := ∀ c ∈ s, c ≠ '\n' ∧ c ≠ '"' ∧ c ≠ '\'' ∧ c ≠ '\\'

instance (s : Str) : Decidable (Unquoted s) := by
  unfold Unquoted
  infer_instance

/-- What systemd is relied on for: a line `name=value` without quotes and backslashes gives
the stripped value, and the last line of a name counts. -/
def ReadsLines (text : Str) (env : Environment) : Prop :=
  ∀ entries, text = lines entries →
    (∀ e ∈ entries, e.1 ≠ [] ∧ IsName e.1 ∧ Unquoted e.2) →
    ∀ name, env name = lastValue entries name

/-- The reader does so on bare lines. -/
theorem variableValue_readsLines {entries : List (Str × Str)} (h : BareLines entries) :
    ReadsLines (lines entries) fun name => variableValue name (lines entries) := by
  intro entries' htext hlines name
  have hbare : BareLines entries' := by
    intro e he
    obtain ⟨hne, hname, hvalue⟩ := hlines e he
    refine ⟨hne, hname, fun c hc => ⟨?_, (hvalue c hc).2⟩⟩
    have hmem : c ∈ lines entries := by
      rw [htext]
      exact List.mem_flatMap.2 ⟨e, he, by simp [hc]⟩
    obtain ⟨d, hd, hc'⟩ := List.mem_flatMap.1 hmem
    obtain ⟨-, hname', hvalue'⟩ := h d hd
    have hnl : c ≠ '\n' := (hvalue c hc).1
    simp only [List.mem_append, List.mem_cons, List.not_mem_nil, or_false] at hc'
    rcases hc' with (hc' | rfl | hc') | hc'
    · have hblank := (hname' c hc').1
      simp only [isBlank, isNewline, Bool.or_eq_false_iff] at hblank ⊢
      exact ⟨hblank.1.2, hblank.2⟩
    · decide
    · exact (hvalue' c hc').1
    · exact absurd hc' hnl
  rw [htext]
  exact variableValue_lines hbare name

theorem rpcProxyValue_unquoted {config : Config} (h : ∀ k s, config k = .str s → Unquoted s)
    {e : Str × Str} (he : e ∈ rpcProxyEnv) : Unquoted (rpcProxyValue config e.1 e.2) := by
  have hdefault : ∀ e ∈ rpcProxyEnv, Unquoted e.2 := by decide
  have hbool : ∀ b : Bool, Unquoted (Value.bool b).toText := by decide
  have hvalue : ∀ k, (config k).truthy = true → Unquoted (config k).toText := by
    intro k hk
    cases hval : config k with
    | none => simp [hval, Value.truthy] at hk
    | bool b => exact hbool b
    | str s => exact h k s hval
  unfold rpcProxyValue
  split
  · split <;> decide
  · split
    next htrue =>
      revert htrue
      unfold rpcProxyOverride
      split
      · exact hvalue _
      · split
        · exact hvalue _
        · split
          · exact hvalue _
          · split
            · exact hvalue _
            · exact nofun
    next => exact hdefault e he

/-- What the proxy finds in its environment. -/
theorem env_rpcProxy {config : Config} (h : ∀ k s, config k = .str s → Unquoted s)
    {env : Environment} (henv : ReadsLines (renderRpcProxyEnv config) env) {key value : Str}
    (hkey : rpcProxyEnv.findRev? (·.1 == key) = some (key, value)) :
    env key = some (stripBy isBlank (rpcProxyValue config key value)) := by
  have hvalue := henv _ (renderRpcProxyEnv_eq config) (by
    intro e he
    obtain ⟨d, hd, rfl⟩ := List.mem_map.1 he
    exact ⟨(rpcProxyEnv_names d hd).1, (rpcProxyEnv_names d hd).2, rpcProxyValue_unquoted h hd⟩) key
  rw [hvalue, lastValue_map rpcProxyEnv fun e => rpcProxyValue config e.1 e.2, hkey]
  rfl

/-- An accepted configuration filters when the charm's option says so, and permits the
baseline and the trimmed entries of the charm's list. -/
theorem parse_handOff (lib : GoLibrary) {config : Config}
    (hconfig : ∀ k s, config k = .str s → Unquoted s) {env : Environment}
    (henv : ReadsLines (renderRpcProxyEnv config) env) {cfg : ProxyConfig}
    (hparse : parse lib {} env = .ok (cfg, false)) :
    cfg.filter = (config .rpcProxyFilter).truthy ∧
      ∀ m, (newAllowlist cfg.extendAllowlist).permits m = true ↔
        m ∈ baseline ∨ m ≠ [] ∧
          ∃ entry ∈ (config .rpcProxyExtendAllowlist).orEmpty.splitOn ',', m = trimRunes entry := by
  obtain ⟨hextend, hfilter⟩ := parse_policy hparse
  have henvFilter := env_rpcProxy hconfig henv
    (by decide : rpcProxyEnv.findRev? (·.1 == "PROXY_FILTER".toList) =
      some ("PROXY_FILTER".toList, "true".toList))
  have henvExtend := env_rpcProxy hconfig henv
    (by decide : rpcProxyEnv.findRev? (·.1 == "PROXY_EXTEND_ALLOWLIST".toList) =
      some ("PROXY_EXTEND_ALLOWLIST".toList, []))
  have hvalue : rpcProxyValue config "PROXY_EXTEND_ALLOWLIST".toList [] =
      (config .rpcProxyExtendAllowlist).orEmpty := rfl
  constructor
  · unfold applyEnvBool applyEnvParsed at hfilter
    rw [henvFilter, rpcProxyValue, if_pos rfl] at hfilter
    cases htruth : (config .rpcProxyFilter).truthy with
    | true =>
      rw [htruth] at hfilter
      exact (Except.ok.inj hfilter).symm
    | false =>
      rw [htruth] at hfilter
      exact (Except.ok.inj hfilter).symm
  · intro m
    have hentries : (∃ entry ∈ (stripBy isBlank (config .rpcProxyExtendAllowlist).orEmpty).splitOn
        ',', m = trimRunes entry) ↔
        ∃ entry ∈ (config .rpcProxyExtendAllowlist).orEmpty.splitOn ',', m = trimRunes entry := by
      have hmem : m ∈ ((stripBy isBlank (config .rpcProxyExtendAllowlist).orEmpty).splitOn
          ',').map trimRunes ↔
          m ∈ ((config .rpcProxyExtendAllowlist).orEmpty.splitOn ',').map trimRunes := by
        rw [map_trim_splitOn_strip]
      simpa only [List.mem_map, eq_comm (a := m)] using hmem
    rw [hextend, henvExtend, Option.getD_some, hvalue, permits_parseExtendList, hentries]

def lenient : GoLibrary := ⟨fun _ => some (30 * 10 ^ 9), fun _ => true⟩

/-- Two methods with odd spacing, and the filter left on. -/
def spacedList : Config :=
  Function.update (Function.update (fun _ => .none) .rpcProxyFilter (.bool true))
    .rpcProxyExtendAllowlist (.str " stop ,, getpeerinfo".toList)

theorem parse_handOff_spacedList :
    ∃ cfg, parse lenient {} (fun name => variableValue name (renderRpcProxyEnv spacedList)) =
        .ok (cfg, false) ∧ cfg.filter = true ∧
      (newAllowlist cfg.extendAllowlist).permits "stop".toList = true := by
  have hconfig : ∀ k s, spacedList k = .str s → Unquoted s := by
    intro k s hk
    cases k with
    | rpcProxyExtendAllowlist =>
      obtain rfl : " stop ,, getpeerinfo".toList = s := Value.str.inj hk
      decide
    | _ => cases hk
  have hlines : BareLines (rpcProxyEnv.map fun e => (e.1, rpcProxyValue spacedList e.1 e.2)) := by
    unfold BareLines IsName Bare
    decide +kernel
  have henv := variableValue_readsLines hlines
  rw [← renderRpcProxyEnv_eq] at henv
  cases hparse : parse lenient {} fun name => variableValue name (renderRpcProxyEnv spacedList) with
  | error e =>
    have hok : (parse lenient {} fun name =>
        variableValue name (renderRpcProxyEnv spacedList)).isOk = true := by decide +kernel
    rw [hparse] at hok
    cases hok
  | ok result =>
    obtain ⟨cfg, version⟩ := result
    cases version with
    | true =>
      have hversion : ∀ r, (parse lenient {} fun name =>
          variableValue name (renderRpcProxyEnv spacedList)) = .ok r → r.2 = false := by
        intro r hr
        obtain ⟨cfg', -, hr⟩ := bind_eq_ok.1 hr
        obtain ⟨-, -, hr⟩ := bind_eq_ok.1 hr
        rw [← Except.ok.inj hr]
      exact absurd (hversion _ hparse) nofun
    | false =>
      obtain ⟨hfilter, hmethods⟩ := parse_handOff lenient hconfig henv hparse
      exact ⟨cfg, rfl, hfilter, (hmethods _).2 (.inr ⟨by decide, " stop ".toList, by decide +kernel,
        by decide +kernel⟩)⟩

end BitcoinRpcOperator.PolicyHandOff
