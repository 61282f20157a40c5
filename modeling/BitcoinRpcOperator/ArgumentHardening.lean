import BitcoinRpcOperator.ServiceConfiguration

/-!
# Hardened service arguments, token by token

`harden_service_args` strips options and puts the charm's own behind what is left, in two
rounds. A round that strips its own pins is a normal form, and the two rounds are one.
-/

namespace BitcoinRpcOperator.ArgumentHardening
open Text ServiceConfiguration

section
variable {α : Type} {keep keep' : α → Bool} {pins pins' : List α}

/-- Keep what `keep` accepts and put `pins` behind it. -/
def pinned (keep : α → Bool) (pins ts : List α) : List α := ts.filter keep ++ pins

/-- Pins that are themselves stripped are put back in the same place. -/
theorem pinned_pinned (h : ∀ t ∈ pins, keep t = false) (ts : List α) :
    pinned keep pins (pinned keep pins ts) = pinned keep pins ts := by
  have hpins : pins.filter keep = [] := by
    rw [List.filter_eq_nil_iff]
    intro t ht
    simp [h t ht]
  have hkept : (ts.filter keep).filter keep = ts.filter keep := by
    rw [List.filter_filter]
    simp
  rw [pinned, pinned, List.filter_append, hpins, List.append_nil, hkept]

/-- A second round that leaves the pins of the first alone. -/
theorem pinned_of_pinned (h : ∀ t ∈ pins, keep' t = true) (ts : List α) :
    pinned keep' pins' (pinned keep pins ts) =
      pinned (fun t => keep t && keep' t) (pins ++ pins') ts := by
  have hpins : pins.filter keep' = pins := List.filter_eq_self.2 h
  have hkept : (ts.filter keep).filter keep' = ts.filter fun t => keep t && keep' t := by
    rw [List.filter_filter]
    simp only [Bool.and_comm]
  rw [pinned, pinned, pinned, List.filter_append, hpins, hkept, List.append_assoc]

end

/-- The name of an option: leading dashes, one `no` prefix and any `=value` removed. -/
def optionName (token : Str) : Str :=
  let name := (token.dropWhile (· == '-')).takeWhile (· != '=')
  if "no".toList <+: name then name.drop 2 else name

/-- The options that are stripped. -/
def strippedOptions (config : Config) : List Str :=
  rpcBindOpts ++ if (config .disableWallet).truthy then walletOpts else []

def appendedTokens (config : Config) : List Str :=
  ["-rpcbind=127.0.0.1".toList, "-rpcbind=[::1]".toList, "-rpcport=".toList ++ bitcoindRpcPort] ++
    if (config .disableWallet).truthy then ["-disablewallet".toList] else []

/-- A bare `no` keeps its name in the code, but it is the name of no option either way. -/
theorem optName_mem_iff {options : List Str} (hempty : [] ∉ options) (hno : "no".toList ∉ options)
    (token : Str) : optName token ∈ options ↔ optionName token ∈ options := by
  have hcut : (cutAt (· == '=') (lstripBy (· == '-') token)).1 =
      (token.dropWhile (· == '-')).takeWhile (· != '=') := cutAt_fst _ _
  rw [optName, optionName, hcut]
  generalize (token.dropWhile (· == '-')).takeWhile (· != '=') = name
  by_cases hprefix : "no".toList <+: name
  · obtain ⟨rest, rfl⟩ := hprefix
    cases rest with
    | nil => exact iff_of_false hno hempty
    | cons c rest => simp
  · have hcode : "no".toList.isPrefixOf name = false := by
      rw [← Bool.not_eq_true, List.isPrefixOf_iff_prefix]
      exact hprefix
    simp only [hcode, Bool.false_and, Bool.false_eq_true, if_false, if_neg hprefix]

theorem hardenedTokens_eq (args : Str) (config : Config) :
    hardenedTokens args config =
      pinned (fun t => decide (optionName t ∉ strippedOptions config)) (appendedTokens config)
        (words args) := by
  have hbind : ∀ t, decide (optName t ∉ rpcBindOpts) = decide (optionName t ∉ rpcBindOpts) :=
    fun t => decide_eq_decide.2 (not_congr (optName_mem_iff (by decide) (by decide) t))
  have hwallet : ∀ t, decide (optName t ∉ walletOpts) = decide (optionName t ∉ walletOpts) :=
    fun t => decide_eq_decide.2 (not_congr (optName_mem_iff (by decide) (by decide) t))
  have hpins : ∀ t ∈ pinnedTokens, decide (optionName t ∉ walletOpts) = true := by decide
  simp only [hardenedTokens, hbind, hwallet, strippedOptions, appendedTokens]
  split
  · have hround : pinned _ ["-disablewallet".toList]
        (pinned (fun t => decide (optionName t ∉ rpcBindOpts)) pinnedTokens (words args)) = _ :=
      pinned_of_pinned hpins (words args)
    simpa [pinned, pinnedTokens] using hround
  · simp [pinned, pinnedTokens]

/-- No token that is appended survives a further hardening. -/
theorem appendedTokens_stripped (config : Config) :
    ∀ t ∈ appendedTokens config, decide (optionName t ∉ strippedOptions config) = false := by
  unfold appendedTokens strippedOptions
  split <;> decide

theorem hardenedTokens_unsplit {args : Str} {config : Config} :
    ∀ t ∈ hardenedTokens args config, t ≠ [] ∧ ∀ c ∈ t, isSpace c = false := by
  have hown : ∀ t ∈ appendedTokens config, t ≠ [] ∧ ∀ c ∈ t, isSpace c = false := by
    unfold appendedTokens
    split <;> decide
  intro t ht
  rw [hardenedTokens_eq] at ht
  rcases List.mem_append.1 ht with ht | ht
  · exact fieldsBy_spec (List.mem_filter.1 ht).1
  · exact hown t ht

theorem words_hardenServiceArgs (args : Str) (config : Config) :
    words (hardenServiceArgs args config) = hardenedTokens args config :=
  fieldsBy_unwords (by decide) hardenedTokens_unsplit

/-- Hardening keeps the tokens of all other options, in place, and a second hardening
changes nothing. -/
theorem hardenServiceArgs_exact (args : Str) (config : Config) :
    words (hardenServiceArgs args config) =
        (words args).filter (fun t => optionName t ∉ strippedOptions config) ++
          appendedTokens config ∧
      hardenServiceArgs (hardenServiceArgs args config) config = hardenServiceArgs args config := by
  constructor
  · rw [words_hardenServiceArgs, hardenedTokens_eq]
    rfl
  · have hagain : hardenedTokens (hardenServiceArgs args config) config =
        hardenedTokens args config := by
      rw [hardenedTokens_eq, words_hardenServiceArgs, hardenedTokens_eq]
      exact pinned_pinned (appendedTokens_stripped config) _
    rw [hardenServiceArgs, hagain, hardenServiceArgs]

end BitcoinRpcOperator.ArgumentHardening
