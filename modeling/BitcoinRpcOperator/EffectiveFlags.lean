import BitcoinRpcOperator.Dictionaries
import BitcoinRpcOperator.Redaction
import BitcoinRpcOperator.ShellWords

/-!
# Effective flags of a command line

`parse_effective_flags` of `bitcoin_metadata.py`. What it finds in a list of tokens is a
list of occurrences, each an option with a value; the flags are what comes of adding them
one by one, sensitive names left out.
-/

namespace BitcoinRpcOperator.EffectiveFlags
open Text Dictionaries SystemdArguments ShellWords

/-- A value, or the list of all when there are at least two. -/
inductive FlagValue where
  | one (value : Str)
  | many (first second : Str) (later : List Str)
  deriving DecidableEq, Repr

abbrev Flags := Dictionary Str FlagValue

def FlagValue.add (value : Str) : Option FlagValue → FlagValue
  | none => .one value
  | some (.many first second later) => .many first second (later ++ [value])
  | some (.one existing) => .many existing value []

def FlagValue.last : FlagValue → Str
  | .one value => value
  | .many _ second later => later.getLastD second

def addFlag (flags : Flags) (name value : Str) : Flags :=
  if Redaction.keyIsSensitive name then flags else flags.update name (FlagValue.add value)

/-- `str.casefold`, with what it makes of the characters beyond ASCII. -/
def casefold (beyond : Char → Str) (s : Str) : Str :=
  s.flatMap fun c => if c.toNat < 0x80 then [c.toLower] else beyond c

def isDash (c : Char) : Bool := c == '-'

/-- `token.startswith("-")`. -/
def isFlag (token : Str) : Bool := token.head?.any isDash

/-- The loop of `parse_effective_flags`. -/
def parseTokens (beyond : Char → Str) : List Str → Flags → Flags
  | [], flags => flags
  | token :: rest, flags =>
    if isFlag token then
      match cutAt (· == '=') (lstripBy isDash token) with
      | (name, some value) => parseTokens beyond rest (addFlag flags (casefold beyond name) value)
      | (raw, none) =>
        match rest with
        | next :: later =>
          if isFlag next then
            parseTokens beyond (next :: later) (addFlag flags (casefold beyond raw) ['1'])
          else parseTokens beyond later (addFlag flags (casefold beyond raw) next)
        | [] => addFlag flags (casefold beyond raw) ['1']
    else parseTokens beyond rest flags

def parseEffectiveFlags (beyond : Char → Str) (cmdline : Str) : Flags :=
  parseTokens beyond ((shlexSplit cmdline).getD (words cmdline)) .empty

/-- `_first_flag`; `none` is the default. -/
def firstFlag (flags : Flags) (name : Str) : Option Str := (flags.get name).map FlagValue.last

/-- An option of the command line with its value. -/
abbrev Occurrence := Str × Str

/-- The options in a list of tokens, with the value that goes with each. -/
def occurrences (beyond : Char → Str) : List Str → List Occurrence
  | [] => []
  | token :: rest =>
    if isFlag token then
      match cutAt (· == '=') (lstripBy isDash token) with
      | (name, some value) => (casefold beyond name, value) :: occurrences beyond rest
      | (raw, none) =>
        match rest with
        | next :: later =>
          if isFlag next then (casefold beyond raw, ['1']) :: occurrences beyond (next :: later)
          else (casefold beyond raw, next) :: occurrences beyond later
        | [] => [(casefold beyond raw, ['1'])]
    else occurrences beyond rest

def addFlags (flags : Flags) (os : List Occurrence) : Flags :=
  os.foldl (fun flags o => addFlag flags o.1 o.2) flags

variable {beyond : Char → Str}

/-- The loop adds the occurrences in their order. -/
theorem parseTokens_eq_addFlags (tokens : List Str) (flags : Flags) :
    parseTokens beyond tokens flags = addFlags flags (occurrences beyond tokens) := by
  fun_induction occurrences beyond tokens generalizing flags with
  | case1 => rfl
  | case2 token rest hflag name value hcut ih =>
    rw [parseTokens, if_pos hflag, hcut]
    exact ih _
  | case3 token hflag raw hcut next later hnext ih =>
    rw [parseTokens, if_pos hflag, hcut]
    dsimp only
    rw [if_pos hnext]
    exact ih _
  | case4 token hflag raw hcut next later hnext ih =>
    rw [parseTokens, if_pos hflag, hcut]
    dsimp only
    rw [if_neg hnext]
    exact ih _
  | case5 token hflag raw hcut =>
    rw [parseTokens, if_pos hflag, hcut]
    rfl
  | case6 token rest hflag ih =>
    rw [parseTokens, if_neg hflag]
    exact ih _

def valuesOf (name : Str) (os : List Occurrence) : List Str :=
  (os.filter fun o => o.1 = name).map (·.2)

/-- What the flags keep of the values of an option. -/
def combined : List Str → Option FlagValue
  | [] => none
  | [value] => some (.one value)
  | first :: second :: later => some (.many first second later)

theorem add_combined (vs : List Str) (v : Str) :
    some (FlagValue.add v (combined vs)) = combined (vs ++ [v]) := by
  match vs with
  | [] => rfl
  | [_] => rfl
  | _ :: _ :: _ => rfl

theorem last_combined (vs : List Str) : (combined vs).map FlagValue.last = vs.getLast? := by
  match vs with
  | [] => rfl
  | [_] => rfl
  | first :: second :: later => simp [combined, FlagValue.last, List.getLast?_cons]

theorem get_addFlag (flags : Flags) (name value l : Str) : (addFlag flags name value).get l =
    if l = name ∧ ¬ Redaction.keyIsSensitive name then some (FlagValue.add value (flags.get name))
    else flags.get l := by
  unfold addFlag
  by_cases hkey : Redaction.keyIsSensitive name
  · simp [hkey]
  · by_cases hl : l = name
    · subst hl
      simp [hkey]
    · simp [hkey, hl, Dictionary.get_update_ne _ hl]

/-- Adding occurrences to flags adds their values, in order, to each option that is not
sensitive. -/
theorem get_addFlags {flags : Flags} {name : Str} (hkey : ¬ Redaction.keyIsSensitive name)
    {vs : List Str} (hflags : flags.get name = combined vs) (os : List Occurrence) :
    (addFlags flags os).get name = combined (vs ++ valuesOf name os) := by
  induction os generalizing flags vs with
  | nil => simpa [addFlags, valuesOf] using hflags
  | cons o os ih =>
    by_cases ho : o.1 = name
    · have hadd : (addFlag flags o.1 o.2).get name = combined (vs ++ [o.2]) := by
        rw [get_addFlag, if_pos ⟨ho.symm, by rwa [ho]⟩, ho, hflags, add_combined]
      have hvalues : valuesOf name (o :: os) = o.2 :: valuesOf name os := by simp [valuesOf, ho]
      rw [hvalues, List.append_cons]
      exact ih hadd
    · have hadd : (addFlag flags o.1 o.2).get name = combined vs := by
        rw [get_addFlag, if_neg fun h => ho h.1.symm, hflags]
      have hvalues : valuesOf name (o :: os) = valuesOf name os := by simp [valuesOf, ho]
      rw [hvalues]
      exact ih hadd

theorem get_addFlags_sensitive {flags : Flags} {name : Str} (hkey : Redaction.keyIsSensitive name)
    (hflags : flags.get name = none) (os : List Occurrence) :
    (addFlags flags os).get name = none := by
  induction os generalizing flags with
  | nil => exact hflags
  | cons o os ih =>
    apply ih
    rw [get_addFlag, if_neg, hflags]
    rintro ⟨rfl, hnot⟩
    exact hnot hkey

/-- The flags of a list of occurrences, option by option. -/
theorem get_flags (os : List Occurrence) (name : Str) : (addFlags .empty os).get name =
    if Redaction.keyIsSensitive name then none else combined (valuesOf name os) := by
  split
  · rename_i hkey
    exact get_addFlags_sensitive hkey rfl os
  · rename_i hkey
    have hnone : (Dictionary.empty : Flags).get name = combined [] := rfl
    exact get_addFlags hkey hnone os

theorem mem_keys_flags {os : List Occurrence} {name : Str} (h : name ∈ (addFlags .empty os).keys) :
    ¬ Redaction.keyIsSensitive name ∧ ∃ o ∈ os, o.1 = name := by
  rw [Dictionary.mem_keys_iff, get_flags] at h
  split at h
  · cases h
  · rename_i hkey
    refine ⟨hkey, ?_⟩
    cases hvalues : valuesOf name os with
    | nil =>
      rw [hvalues] at h
      cases h
    | cons value later =>
      have hmem : value ∈ valuesOf name os := by simp [hvalues]
      obtain ⟨o, ho, -⟩ := List.mem_map.1 hmem
      obtain ⟨ho, hname⟩ := List.mem_filter.1 ho
      exact ⟨o, ho, of_decide_eq_true hname⟩

theorem firstFlag_flags {name : Str} (hkey : ¬ Redaction.keyIsSensitive name)
    (os : List Occurrence) : firstFlag (addFlags .empty os) name = (valuesOf name os).getLast? := by
  rw [firstFlag, get_flags, if_neg hkey, last_combined]

/-- The option that an argument sets: up to case, and to 1 where it has no value. -/
def optionOf (beyond : Char → Str) (argument : Str) : Occurrence :=
  match cutAt (· == '=') (lstripBy isDash argument) with
  | (name, some value) => (casefold beyond name, value)
  | (name, none) => (casefold beyond name, ['1'])

/-- Where every token is an option, none is taken for the value of the one before. -/
theorem occurrences_options {options : List Str} (h : ∀ a ∈ options, isFlag a) :
    occurrences beyond options = options.map (optionOf beyond) := by
  induction options with
  | nil => rfl
  | cons a options ih =>
    have hrest := ih fun b hb => h b (List.mem_cons_of_mem _ hb)
    rw [occurrences, if_pos (h a List.mem_cons_self), List.map_cons, optionOf]
    obtain ⟨name, value⟩ := cutAt (· == '=') (lstripBy isDash a)
    cases value with
    | some value => exact congrArg _ hrest
    | none =>
      cases options with
      | nil => rfl
      | cons b options =>
        dsimp only
        rw [if_pos (h b (by simp)), hrest]

/-- A program and its options, none of which needs quoting. -/
structure ArgumentVector where
  path : Str
  options : List Str
  path_ne : path ≠ []
  path_not_flag : isFlag path = false
  options_flags : ∀ a ∈ options, isFlag a
  unquoted : ∀ t ∈ path :: options, Plain t ∧ ∀ c ∈ t, isBlank c = false

namespace ArgumentVector

def cmdline (v : ArgumentVector) : Str := unwords (v.path :: v.options)

theorem shlexSplit_cmdline (v : ArgumentVector) :
    shlexSplit v.cmdline = some (v.path :: v.options) := by
  apply shlexSplit_unwords
  intro t ht
  refine ⟨?_, v.unquoted t ht⟩
  rcases List.mem_cons.1 ht with rfl | ht
  · exact v.path_ne
  · rintro rfl
    exact absurd (v.options_flags [] ht) (by decide)

theorem parseEffectiveFlags_eq (v : ArgumentVector) :
    parseEffectiveFlags beyond v.cmdline =
      addFlags .empty (v.options.map (optionOf beyond)) := by
  have hpath : occurrences beyond (v.path :: v.options) = occurrences beyond v.options := by
    rw [occurrences, if_neg (by simp [v.path_not_flag])]
  rw [parseEffectiveFlags, v.shlexSplit_cmdline, Option.getD_some, parseTokens_eq_addFlags, hpath,
    occurrences_options v.options_flags]

end ArgumentVector

/-- The flags of a command line are its options that are not sensitive, each with all its
values in their order; `firstFlag` finds the last of them. -/
theorem parseEffectiveFlags_exact (beyond : Char → Str) (v : ArgumentVector) :
    (∀ name, (parseEffectiveFlags beyond v.cmdline).get name =
      if Redaction.keyIsSensitive name then none
      else combined (valuesOf name (v.options.map (optionOf beyond)))) ∧
    (∀ name ∈ (parseEffectiveFlags beyond v.cmdline).keys,
      ¬ Redaction.keyIsSensitive name ∧ ∃ a ∈ v.options, (optionOf beyond a).1 = name) ∧
    ∀ name, ¬ Redaction.keyIsSensitive name →
      firstFlag (parseEffectiveFlags beyond v.cmdline) name =
        (valuesOf name (v.options.map (optionOf beyond))).getLast? := by
  rw [v.parseEffectiveFlags_eq]
  refine ⟨get_flags _, ?_, ?_⟩
  · intro name hname
    obtain ⟨hkey, o, ho, hoption⟩ := mem_keys_flags hname
    obtain ⟨a, ha, rfl⟩ := List.mem_map.1 ho
    exact ⟨hkey, a, ha, hoption⟩
  · intro name hkey
    exact firstFlag_flags hkey _

/-- A node with a repeated, a bare and a sensitive option. -/
def sampleVector : ArgumentVector where
  path := "/home/bitcoin/bitcoind".toList
  options := ["-zmqpubhashtx=tcp://127.0.0.1:1".toList, "-TXINDEX".toList,
    "-rpcpassword=hunter2".toList, "-zmqpubhashtx=tcp://127.0.0.1:2".toList]
  path_ne := by decide
  path_not_flag := by decide
  options_flags := by decide
  unquoted := by
    unfold Plain
    decide

theorem parseEffectiveFlags_sampleVector :
    (parseEffectiveFlags (fun c => [c]) sampleVector.cmdline).get "zmqpubhashtx".toList =
        some (.many "tcp://127.0.0.1:1".toList "tcp://127.0.0.1:2".toList []) ∧
      (parseEffectiveFlags (fun c => [c]) sampleVector.cmdline).get "rpcpassword".toList = none ∧
      firstFlag (parseEffectiveFlags (fun c => [c]) sampleVector.cmdline) "txindex".toList =
        some ['1'] := by
  obtain ⟨hget, -, hlast⟩ := parseEffectiveFlags_exact (fun c => [c]) sampleVector
  refine ⟨?_, ?_, ?_⟩
  · rw [hget]
    rfl
  · rw [hget]
    rfl
  · rw [hlast _ (by decide)]
    rfl

end BitcoinRpcOperator.EffectiveFlags
