import BitcoinRpcOperator.MonitorRuns

/-!
# A gauge for each number of blocks

The gauges for the hash rate and for the smart fee are made as they are needed, under names that
are put together from numbers of blocks. The registry takes no name twice.
-/

namespace BitcoinRpcOperator.MonitorGauges
open Text PythonValues Dictionaries FallibleProcedures MonitorRefresh MonitorRuns

theorem toDigits_injective : Function.Injective (Nat.toDigits 10) := by
  intro m n h
  have hvalue := congrArg (fun s => Nat.ofDigitChars 10 s 0) h
  simpa only [Nat.ofDigitChars_ten_toDigits] using hvalue

theorem not_mem_toDigits {c : Char} (hc : c.isDigit = false) (n : ℕ) : c ∉ Nat.toDigits 10 n := by
  intro hmem
  have hdigit : c.isDigit := Nat.isDigit_of_mem_toDigits (by decide) (by decide) hmem
  rw [hc] at hdigit
  cases hdigit

theorem intText_injective : Function.Injective intText := by
  have hsign : ∀ {m n : ℕ}, Nat.toDigits 10 m ≠ '-' :: Nat.toDigits 10 n := by
    intro m n h
    exact not_mem_toDigits (c := '-') (by decide) m (by rw [h]; exact List.mem_cons_self)
  intro m n h
  cases m with
  | ofNat m =>
    cases n with
    | ofNat n => exact congrArg Int.ofNat (toDigits_injective h)
    | negSucc n => exact absurd h hsign
  | negSucc m =>
    cases n with
    | ofNat n => exact absurd h.symm hsign
    | negSucc n =>
      have hdigits : m + 1 = n + 1 := toDigits_injective (List.cons.inj h).2
      exact congrArg Int.negSucc (Nat.succ.inj hdigits)

theorem hashpsGaugeSuffix_cases (n : ℤ) :
    n < 0 ∧ hashpsGaugeSuffix n = "_neg".toList ++ intText (-n) ∨ n = 120 ∧ hashpsGaugeSuffix n = [] ∨
      (∃ k : ℕ, n = k) ∧ n ≠ 120 ∧ hashpsGaugeSuffix n = '_' :: intText n := by
  unfold hashpsGaugeSuffix
  by_cases hneg : n < 0
  · exact .inl ⟨hneg, if_pos hneg⟩
  · rw [if_neg hneg]
    by_cases hdefault : n = 120
    · exact .inr (.inl ⟨hdefault, if_pos hdefault⟩)
    · exact .inr (.inr ⟨⟨n.toNat, by omega⟩, hdefault, if_neg hdefault⟩)

theorem hashpsGaugeSuffix_injective : Function.Injective hashpsGaugeSuffix := by
  -- A number that is not negative is written with digits only.
  have hletter : ∀ {k : ℕ} {m : ℤ}, "_neg".toList ++ intText m ≠ '_' :: intText k := by
    intro k m h
    have hrest : "neg".toList ++ intText m = Nat.toDigits 10 k := (List.cons.inj h).2
    exact not_mem_toDigits (c := 'n') (by decide) k (by rw [← hrest]; exact List.mem_cons_self)
  intro m n h
  rcases hashpsGaugeSuffix_cases m with ⟨hm, hsm⟩ | ⟨hm, hsm⟩ | ⟨⟨k, rfl⟩, hm, hsm⟩ <;>
    rcases hashpsGaugeSuffix_cases n with ⟨hn, hsn⟩ | ⟨hn, hsn⟩ | ⟨⟨l, rfl⟩, hn, hsn⟩ <;>
    rw [hsm, hsn] at h
  · have hminus : -m = -n := intText_injective (List.append_cancel_left h)
    omega
  · cases h
  · exact absurd h hletter
  · cases h
  · exact hm.trans hn.symm
  · cases h
  · exact absurd h.symm hletter
  · cases h
  · exact intText_injective (List.cons.inj h).2

def stem : Family → Str
  | .hashps => "bitcoin_hashps".toList
  | .smartFee => "bitcoin_est_smart_fee_".toList

theorem gauge_begins (family : Family) (n : ℤ) : stem family <+: family.gauge n := by
  cases family <;> exact List.prefix_append _ _

/-- No two numbers share a gauge, and the two families share none. -/
theorem gauge_injective {family family' : Family} {n n' : ℤ} (h : family.gauge n = family'.gauge n') :
    family = family' ∧ n = n' := by
  have hletter : ∀ m m', Family.hashps.gauge m ≠ Family.smartFee.gauge m' := by
    intro m m' heq
    have hninth : some 'h' = some 'e' := congrArg (fun s : Str => s[8]?) heq
    cases hninth
  cases family with
  | hashps =>
    cases family' with
    | hashps => exact ⟨rfl, hashpsGaugeSuffix_injective (List.append_cancel_left h)⟩
    | smartFee => exact absurd h (hletter n n')
  | smartFee =>
    cases family' with
    | hashps => exact absurd h.symm (hletter n' n)
    | smartFee => exact ⟨rfl, intText_injective (List.append_cancel_left h)⟩

/-- The gauges that were made are those of their numbers, and no other name of theirs is taken. -/
structure Named {F : Type} (s : Exporter F) : Prop where
  named : ∀ family n name, (s.made family).get n = some name → name = family.gauge n
  taken : ∀ (family : Family) n, family.gauge n ∈ s.registered → ((s.made family).get n).isSome

variable {F : Type} {lib : Library F} {settings : Settings} {env : Environment Call Answer}

theorem Named.of_eq {s s' : Exporter F} (h : Named s) (hmade : s'.made = s.made)
    (hregistered : s'.registered = s.registered) : Named s' where
  named := by
    rw [hmade]
    exact h.named
  taken := by
    rw [hmade, hregistered]
    exact h.taken

theorem get_recordMade (s : Exporter F) (family family' : Family) (n n' : ℤ) (name : Str) :
    ((recordMade family n name s).made family').get n' =
      if family' = family ∧ n' = n then some name else (s.made family').get n' := by
  change (Function.update s.made family ((s.made family).update n fun _ => name) family').get n' = _
  by_cases hfamily : family' = family
  · subst hfamily
    rw [Function.update_self]
    by_cases hn : n' = n
    · subst hn
      rw [Dictionary.get_update_self, if_pos ⟨rfl, rfl⟩]
    · rw [Dictionary.get_update_ne _ hn, if_neg fun h => hn h.2]
  · rw [Function.update_of_ne hfamily, if_neg fun h => hfamily h.1]

theorem Named.made {s : Exporter F} (h : Named s) (family : Family) (n : ℤ) :
    Named (recordMade family n (family.gauge n) (enrol lib (family.gauge n) s)) where
  named family' n' name hget := by
    rw [get_recordMade] at hget
    split at hget
    · rename_i heq
      obtain ⟨rfl, rfl⟩ := heq
      exact (Option.some.inj hget).symm
    · exact h.named family' n' name hget
  taken family' n' hmem := by
    rw [get_recordMade]
    split
    · rfl
    · rename_i hne
      rcases List.mem_cons.1 hmem with heq | hmem
      · exact absurd (gauge_injective heq) hne
      · exact h.taken family' n' hmem

/-- The gauge of a number, which is made only if there is none. -/
theorem gaugeFor_spec (family : Family) (n : ℤ) {w : Process F} (h : Named w.host) :
    wp env (family.gaugeFor lib n)
      (fun name w' => name = family.gauge n ∧ Named w'.host ∧ w'.history = w.history ∧
        ∀ series : Series, series.name ≠ family.gauge n → w'.host.gauges.get series = w.host.gauges.get series)
      (fun _ w' => lib.validName (family.gauge n) = false ∧ w' = w) w := by
  simp only [Family.gaugeFor, wp_bind, wp_readHost]
  cases hmade : (w.host.made family).get n with
  | some name => exact ⟨h.named family n name hmade, h, rfl, fun _ _ => rfl⟩
  | none =>
    have hfree : family.gauge n ∉ w.host.registered := by
      intro hmem
      have hsome := h.taken family n hmem
      rw [hmade] at hsome
      cases hsome
    simp only [register, wp_bind, wp_readHost, wp_ite, wp_modifyHost, wp_pure]
    by_cases hvalid : lib.validName (family.gauge n) = false
    · rw [if_pos (.inl hvalid)]
      exact ⟨hvalid, rfl⟩
    · rw [if_neg (not_or.2 ⟨hvalid, hfree⟩)]
      refine ⟨trivial, h.made family n, rfl, fun series hseries => ?_⟩
      exact Dictionary.get_update_ne _ fun heq => hseries (congrArg Series.name heq)

theorem named_respects : Respects lib env (fun w : Process F => Named w.host) fun _ => True where
  call _ _ _ := bitcoinrpc_stays fun _ h => h.of_eq rfl rfl
  adjusted _ _ _ _ h := h.of_eq rfl rfl
  numbered family n value _ := by
    have hmake : Stays env (Preserves fun w : Process F => Named w.host) (family.gaugeFor lib n) :=
      stays_of_wp fun w h =>
        wp_mono (gaugeFor_spec family n h) (fun _ _ hspec => hspec.2.1) fun _ _ hspec => hspec.2 ▸ h
    exact hmake.bind fun _ => (orRaise_stays value).bind fun _ => .modifyHost fun _ h => h.of_eq rfl rfl
  warned _ h := h.of_eq rfl rfl

theorem getblockstats_named {blockHash : Str} :
    Stays env (Preserves fun w : Process F => Named w.host) (getblockstats blockHash) :=
  getblockstats_stays (fun _ _ h => h.of_eq rfl rfl) fun _ _ h => h.of_eq rfl rfl

theorem gauge_not_standing (family : Family) (n : ℤ) :
    family.gauge n ∉ standingGauges ++ banGauges ++ counterNames := by
  have hstems : ∀ family, ∀ name ∈ standingGauges ++ banGauges ++ counterNames, ¬ stem family <+: name := by
    intro family
    cases family <;> decide +kernel
  exact fun hmem => hstems family _ hmem (gauge_begins family n)

theorem initial_named : Named (initial lib settings).host where
  named _ _ _ hget := by cases hget
  taken family n hmem := by
    refine absurd ?_ (gauge_not_standing family n)
    simp only [initial, List.mem_append] at hmem ⊢
    rcases hmem with (hmem | hmem) | hmem
    · exact .inl (.inl hmem)
    · split at hmem
      · exact .inl (.inr hmem)
      · cases hmem
    · exact .inr hmem

theorem run_named (scrapes : List Scrape) : Named (run lib settings env (initial lib settings) scrapes).host :=
  run_preserves (named_respects.refreshMetrics fun _ => getblockstats_named) (fun _ _ h => h.of_eq rfl rfl)
    (fun _ _ _ h => h.of_eq rfl rfl) initial_named scrapes

/-- After every run, the gauge for a number of blocks is the one with the name of that number, of
which there is no other, and making it fails only where the library takes no such name: the
registry never finds it taken. -/
theorem run_gaugeFor (scrapes : List Scrape) (family : Family) (n : ℤ) :
    wp env (family.gaugeFor lib n)
      (fun name _ => name = family.gauge n ∧
        ∀ (family' : Family) n', family'.gauge n' = name → family' = family ∧ n' = n)
      (fun _ _ => lib.validName (family.gauge n) = false)
      (run lib settings env (initial lib settings) scrapes) := by
  refine wp_mono (gaugeFor_spec family n (run_named scrapes)) ?_ fun _ _ hspec => hspec.1
  rintro name _ ⟨rfl, -⟩
  exact ⟨rfl, fun _ _ heq => gauge_injective heq⟩

end BitcoinRpcOperator.MonitorGauges
