import BitcoinRpcOperator.MonitorRefresh

/-!
# Runs of the exporter

What a refresh does is made of a few moves, so that a property is kept by all runs when each of
these moves keeps it. Three follow: refreshes keep their distance, the node is asked once for what
the exporter remembers of a block, and each number of blocks has a gauge of its own.
-/

namespace BitcoinRpcOperator.MonitorRuns
open Text PythonValues Dictionaries FallibleProcedures MonitorRefresh

variable {F : Type} {lib : Library F} {settings : Settings} {env : Environment Call Answer}

def statusGauges : List Str :=
  ["bitcoin_uptime", "bitcoin_blocks", "bitcoin_peers", "bitcoin_conn_in", "bitcoin_conn_out",
    "bitcoin_difficulty", "bitcoin_server_version", "bitcoin_protocol_version", "bitcoin_size_on_disk",
    "bitcoin_verification_progress"].map String.toList

def memoryGauges : List Str :=
  ["bitcoin_txcount", "bitcoin_num_chaintips", "bitcoin_meminfo_used", "bitcoin_meminfo_free",
    "bitcoin_meminfo_total", "bitcoin_meminfo_locked", "bitcoin_meminfo_chunks_used",
    "bitcoin_meminfo_chunks_free", "bitcoin_mempool_bytes", "bitcoin_mempool_size", "bitcoin_mempool_usage",
    "bitcoin_mempool_minfee", "bitcoin_mempool_unbroadcast", "bitcoin_total_bytes_recv",
    "bitcoin_total_bytes_sent"].map String.toList

def blockGauges : List Str :=
  ["bitcoin_latest_block_size", "bitcoin_latest_block_txs", "bitcoin_latest_block_height",
    "bitcoin_latest_block_weight", "bitcoin_latest_block_inputs", "bitcoin_latest_block_outputs",
    "bitcoin_latest_block_value", "bitcoin_latest_block_fee"].map String.toList

def bannedGauges : List Str := ["bitcoin_banned_peers".toList]

def activeGauges : List Str := ["bitcoin_rpc_active".toList]

theorem names_rowsIf (info : Data) (gauge key : String) :
    ((rowsIf lib info gauge key).map Prod.fst).Sublist [gauge.toList] := by
  rw [rowsIf]
  split
  · exact .refl _
  · exact List.nil_sublist _

theorem names_statusRows (c : Collected) : ((statusRows lib c).map Prod.fst).Sublist statusGauges := by
  have hin := @names_rowsIf F lib c.networkinfo "bitcoin_conn_in" "connections_in"
  have hout := @names_rowsIf F lib c.networkinfo "bitcoin_conn_out" "connections_out"
  rw [statusRows]
  simp only [List.map_cons, List.map_append]
  refine List.Sublist.cons_cons _ ?_
  exact (((hin.append_left _).append hout).append (.refl _) |>.append (.refl _)).append (.refl _)

theorem names_memoryRows (c : Collected) : ((memoryRows lib c).map Prod.fst).Sublist memoryGauges := by
  have hunbroadcast := @names_rowsIf F lib c.mempool "bitcoin_mempool_unbroadcast" "unbroadcastcount"
  rw [memoryRows]
  simp only [List.map_cons, List.map_append]
  exact (List.Sublist.refl _).append (List.Sublist.cons_cons _ ((hunbroadcast.append_left _).append (.refl _)))

theorem names_bannedRows (c : Collected) : ((bannedRows lib c).map Prod.fst).Sublist bannedGauges := .refl _

theorem names_activeRows (c : Collected) : ((activeRows lib c).map Prod.fst).Sublist activeGauges := .refl _

theorem names_blockRows (block : Data) : (blockRows lib block).map Prod.fst = blockGauges := rfl

/-- What holds in the first world holds in the second. -/
def Preserves (I : Process F → Prop) (w w' : Process F) : Prop := I w → I w'

instance (I : Process F → Prop) : Std.Refl (Preserves I) := ⟨fun _ h => h⟩

instance (I : Process F → Prop) : IsTrans (Process F) (Preserves I) := ⟨fun _ _ _ h h' hI => h' (h hI)⟩

/-- The moves of a refresh keep `I`, if it sets no other gauges than those of `S`. What it does
about the latest block stands apart. -/
structure Respects (lib : Library F) (env : Environment Call Answer) (I : Process F → Prop)
    (S : Series → Prop) : Prop where
  call : ∀ method params, method ≠ "getblockstats".toList →
    Stays env (Preserves I) (bitcoinrpc method params)
  adjusted : ∀ series f (w : Process F), S series → I w → I ⟨w.history, adjust series f w.host⟩
  numbered : ∀ (family : Family) n value, S ⟨family.gauge n, []⟩ →
    Stays env (Preserves I) (setTo (family.gaugeFor lib n) value)
  warned : ∀ w : Process F, I w → I ⟨w.history, warn w.host⟩

section
variable {I : Process F → Prop} {S : Series → Prop}

/-- It is enough to look at worlds where `I` holds. -/
theorem stays_of_wp {α : Type} {m : Task F α} (h : ∀ w, I w → wp env m (fun _ => I) (fun _ => I) w) :
    Stays env (Preserves I) m := by
  intro w
  by_cases hw : I w
  · exact wp_mono (h w hw) (fun _ _ hI _ => hI) fun _ _ hI _ => hI
  · exact wp_mono (wp_trivial m w) (fun _ _ _ hI => absurd hI hw) fun _ _ _ hI => absurd hI hw

theorem orRaise_stays {α : Type} (x : Except Exc α) : Stays env (Preserves I) (orRaise x : Task F α) := by
  cases x with
  | ok a => exact .pure a
  | error e => exact .throw e

theorem forEach_stays {α : Type} {f : α → Task F Unit} {xs : List α}
    (h : ∀ x ∈ xs, Stays env (Preserves I) (f x)) : Stays env (Preserves I) (forEach f xs) := by
  induction xs with
  | nil => exact .pure ()
  | cons x xs ih =>
    rw [List.forall_mem_cons] at h
    exact h.1.bind fun _ => ih h.2

theorem publish_stays {rows : List (Row F)} (h : ∀ row ∈ rows, ∀ x (w : Process F),
    I w → I ⟨w.history, adjust row.series (fun _ => x) w.host⟩) : Stays env (Preserves I) (publish rows) := by
  induction rows with
  | nil => exact .pure ()
  | cons row rows ih =>
    rw [List.forall_mem_cons] at h
    exact (orRaise_stays _).bind fun x => (Stays.modifyHost fun w hI => h.1 x w hI).bind fun _ => ih h.2

namespace Respects

theorem adjust (h : Respects lib env I S) {series : Series} (hS : S series) (f : Option F → F) :
    Stays env (Preserves I) (modifyHost (adjust series f) : Task F Unit) :=
  .modifyHost fun w hI => h.adjusted series f w hS hI

theorem publish (h : Respects lib env I S) {rows : List (Row F)} (hrows : ∀ row ∈ rows, S row.series) :
    Stays env (Preserves I) (publish rows) :=
  publish_stays fun row hrow _ w hI => h.adjusted _ _ w (hrows row hrow) hI

theorem doSmartfee (h : Respects lib env I S) {n : ℤ} (hS : S ⟨Family.smartFee.gauge n, []⟩) :
    Stays env (Preserves I) (doSmartfee lib n) := by
  refine (h.call _ _ ?_).bind fun _ => (orRaise_stays _).bind fun _ => .runIf fun _ => ?_
  · decide
  · exact h.numbered .smartFee n _ hS

theorem doHashpsGauge (h : Respects lib env I S) {n : ℤ} (hS : S ⟨Family.hashps.gauge n, []⟩) :
    Stays env (Preserves I) (doHashpsGauge lib n) := by
  refine (h.call _ _ ?_).bind fun _ => (orRaise_stays _).bind fun _ => ?_
  · decide
  · exact h.numbered .hashps n _ hS

theorem setBan (h : Respects lib env I S) {name : String} (hname : ∀ series : Series,
    series.name = name.toList → S series) (key : String) (ban : Data) :
    Stays env (Preserves I) (setBan lib name key ban) := by
  intro w
  rw [MonitorRefresh.setBan, wp_bind]
  cases hseries : banSeries lib name ban with
  | error e => exact refl_of (Preserves I) w
  | ok series =>
    have hS : S series := by
      refine hname series ?_
      rw [banSeries] at hseries
      cases haddress : subscript "address".toList ban with
      | error e =>
        rw [haddress] at hseries
        cases hseries
      | ok address =>
        cases hreason : getOr "ban_reason".toList (.str "manually added".toList) ban with
        | error e =>
          rw [haddress, hreason] at hseries
          cases hseries
        | ok reason =>
          rw [haddress, hreason] at hseries
          cases hseries
          rfl
    exact ((h.adjust hS _).bind fun _ => (orRaise_stays _).bind fun _ => h.adjust hS _) w

theorem setBans (h : Respects lib env I S) (hS : ∀ series : Series, series.name ∈ banGauges → S series) (ban : Data) :
    Stays env (Preserves I) (setBans lib ban) := by
  refine (h.setBan (fun series hname => hS series ?_) _ ban).bind fun _ =>
    h.setBan (fun series hname => hS series ?_) _ ban
  all_goals
    rw [hname]
    decide

theorem checkWarnings (h : Respects lib env I S) (c : Collected) :
    Stays env (Preserves I) (checkWarnings lib c) :=
  (orRaise_stays _).bind fun _ => .runIf fun _ => .modifyHost h.warned

theorem collect (h : Respects lib env I S) (hblock : ∀ blockHash, Stays env (Preserves I) (getblockstats blockHash)) :
    Stays env (Preserves I) (collect lib) := by
  refine (h.call _ _ ?_).bind fun _ => (orRaise_stays _).bind fun _ =>
    (h.call _ _ ?_).bind fun _ => (orRaise_stays _).bind fun _ =>
    (h.call _ _ ?_).bind fun _ => (h.call _ _ ?_).bind fun _ =>
    (h.call _ _ ?_).bind fun _ => (orRaise_stays _).bind fun _ =>
    (h.call _ _ ?_).bind fun _ => (h.call _ _ ?_).bind fun _ =>
    (h.call _ _ ?_).bind fun _ => (h.call _ _ ?_).bind fun _ =>
    (orRaise_stays _).bind fun _ => (hblock _).bind fun _ =>
    (h.call _ _ ?_).bind fun _ => .pure _
  all_goals decide

/-- The block gauges apart, which a caller may know more about. -/
theorem setGauges (h : Respects lib env I S) (hS : ∀ series : Series, series.name ∉ blockGauges → S series)
    (hnumbered : ∀ (family : Family) n, S ⟨family.gauge n, []⟩) {c : Collected}
    (hblock : isNone c.latestBlockstats = false →
      Stays env (Preserves I) (MonitorRefresh.publish (blockRows lib c.latestBlockstats))) :
    Stays env (Preserves I) (setGauges lib settings c) := by
  have hrows : ∀ {rows : List (Row F)} {names : List Str}, (rows.map Prod.fst).Sublist names →
      (∀ name ∈ names, name ∉ blockGauges) → ∀ row ∈ rows, S row.series := by
    intro rows names hnames hapart row hrow
    have hname : row.1 ∈ names := hnames.mem (List.mem_map_of_mem hrow)
    exact hS row.series (hapart _ hname)
  have hstatus : ∀ row ∈ statusRows lib c, S row.series := hrows (names_statusRows c) (by decide +kernel)
  have hbanned : ∀ row ∈ bannedRows lib c, S row.series := hrows (names_bannedRows c) (by decide +kernel)
  have hmemory : ∀ row ∈ memoryRows lib c, S row.series := hrows (names_memoryRows c) (by decide +kernel)
  have hactive : ∀ row ∈ activeRows lib c, S row.series := hrows (names_activeRows c) (by decide +kernel)
  have hbans : ∀ ban, Stays env (Preserves I) (MonitorRefresh.setBans lib ban) := by
    have hapart : ∀ name ∈ banGauges, name ∉ blockGauges := by decide +kernel
    exact h.setBans fun series hname => hS series (hapart _ hname)
  exact (h.publish hstatus).bind fun _ => (forEach_stays fun n _ => h.doSmartfee (hnumbered _ n)).bind fun _ =>
    (forEach_stays fun n _ => h.doHashpsGauge (hnumbered _ n)).bind fun _ => (h.publish hbanned).bind fun _ =>
    (Stays.runIf fun _ => forEach_stays fun ban _ => hbans ban).bind fun _ => (h.checkWarnings c).bind fun _ =>
    (h.publish hmemory).bind fun _ => (Stays.runIf hblock).bind fun _ => h.publish hactive

/-- Where all gauges may be set. -/
theorem refreshMetrics (h : Respects lib env I fun _ => True)
    (hblock : ∀ blockHash, Stays env (Preserves I) (getblockstats blockHash)) :
    Stays env (Preserves I) (refreshMetrics lib settings) :=
  (h.collect hblock).bind fun _ => h.setGauges (fun _ _ => trivial) (fun _ _ => trivial) fun _ =>
    h.publish fun _ _ => trivial

end Respects

end

/-- Only what is asked, what is remembered of a block and the time of the refresh matter to `I`. -/
def Aloof (I : Process F → Prop) : Prop :=
  ∀ (w : Process F) (s : Exporter F), s.blockstats = w.host.blockstats → s.lastRefresh = w.host.lastRefresh →
    I w → I ⟨w.history, s⟩

section
variable {I : Process F → Prop}

theorem bitcoinrpc_stays {method : Str} {params : List Data}
    (h : ∀ w : Process F, I w → I ⟨⟨method, params⟩ :: w.history,
      countErrors (env w.history ⟨method, params⟩).retried w.host⟩) :
    Stays env (Preserves I) (bitcoinrpc method params) := by
  intro w
  simp only [bitcoinrpc, wp_bind, wp_ask, wp_modifyHost]
  exact wp_mono (@orRaise_stays F env I _ _ _) (fun _ _ hkeep hI => hkeep (h w hI)) fun _ _ hkeep hI => hkeep (h w hI)

/-- Where it does not matter what is remembered of a block. -/
theorem getblockstats_stays {blockHash : Str}
    (hcall : ∀ (w : Process F) names, I w → I ⟨⟨"getblockstats".toList,
      [.str blockHash, .list (blockFields.map .str)]⟩ :: w.history, countErrors names w.host⟩)
    (hremember : ∀ (w : Process F) block, I w → I ⟨w.history, remember blockHash block w.host⟩) :
    Stays env (Preserves I) (getblockstats blockHash) := by
  refine Stays.readHost.bind fun s => ?_
  cases s.recall blockHash with
  | some block => exact .pure block
  | none =>
    have hretrieve : Stays env (Preserves I) (retrieveBlock blockHash) := by
      refine Stays.tryCatch (bitcoinrpc_stays fun w hI => hcall w _ hI) fun e => ?_
      cases e with
      | systemExit code => exact .throw _
      | _ => exact .pure _
    exact hretrieve.bind fun block => (Stays.modifyHost fun w hI => hremember w block hI).bind fun _ => .pure _

theorem Aloof.gaugeFor (h : Aloof I) (family : Family) (n : ℤ) :
    Stays env (Preserves I) (family.gaugeFor lib n) := by
  refine Stays.readHost.bind fun s => ?_
  cases (s.made family).get n with
  | some gauge => exact .pure gauge
  | none =>
    have hregister : Stays env (Preserves I) (register lib (family.gauge n)) :=
      Stays.readHost.bind fun _ => .ite (.throw _) (.modifyHost fun w hI => h w (enrol lib _ w.host) rfl rfl hI)
    have hrecord : Stays env (Preserves I) (modifyHost (recordMade family n (family.gauge n)) : Task F Unit) :=
      .modifyHost fun w hI => h w (recordMade family n (family.gauge n) w.host) rfl rfl hI
    exact hregister.bind fun _ => hrecord.bind fun _ => .pure _

theorem Aloof.respects (h : Aloof I)
    (hcall : ∀ (w : Process F) (method : Str) (params : List Data), method ≠ "getblockstats".toList →
      I w → I ⟨⟨method, params⟩ :: w.history, w.host⟩) :
    Respects lib env I fun _ => True where
  call method params hne := bitcoinrpc_stays fun w hI => h ⟨_, w.host⟩ _ rfl rfl (hcall w method params hne hI)
  adjusted _ _ w _ hI := h w _ rfl rfl hI
  numbered family n value _ := (h.gaugeFor family n).bind fun _ => (orRaise_stays value).bind fun _ =>
    .modifyHost fun w hI => h w _ rfl rfl hI
  warned w hI := h w _ rfl rfl hI

end

/-- The time of the refresh is set when it is over. -/
theorem refreshMetrics_lastRefresh (t : ℤ) :
    Stays env (Preserves fun w : Process F => w.host.lastRefresh = t) (refreshMetrics lib settings) := by
  have haloof : Aloof fun w : Process F => w.host.lastRefresh = t := fun w s _ hlast hI => hlast.trans hI
  have hblock : ∀ blockHash, Stays env (Preserves fun w : Process F => w.host.lastRefresh = t)
      (getblockstats blockHash) :=
    fun _ => getblockstats_stays (fun _ _ hI => hI) fun _ _ hI => hI
  exact (haloof.respects fun _ _ _ _ hI => hI).refreshMetrics hblock

/-- What a scrape comes to, by what `refreshApp` comes to. -/
theorem visit_of_wp (P : Visit × Process F → Prop) {w : Process F} {scrape : Scrape}
    {Q : Served → Process F → Prop} {E : Exc → Process F → Prop}
    (h : wp env (refreshApp lib settings scrape.start scrape.finish) Q E w)
    (hQ : ∀ served w', Q served w' → P (⟨scrape.start, .ok served, w'.history.length - w.history.length⟩, w'))
    (hE : ∀ e w', E e w' → P (⟨scrape.start, .error e, w'.history.length - w.history.length⟩, w')) :
    P (visit lib settings env w scrape) := by
  unfold visit
  cases hrun : refreshApp lib settings scrape.start scrape.finish env w with
  | ok served w' => exact hQ served w' (wp_of_ok h hrun)
  | error e w' => exact hE e w' (wp_of_error h hrun)

/-- An exception that is excused still completes the refresh; any other leaves it undone. -/
theorem excuse_lastRefresh (t : ℤ) (e : Exc) (w : Process F) (h : w.host.lastRefresh = t) :
    wp env (excuse e) (fun served w' => served ≠ .early ∧ w'.host.lastRefresh = t)
      (fun _ w' => w'.host.lastRefresh = t) w := by
  cases e with
  | retryError name | jsonRpcError name => exact ⟨nofun, h⟩
  | jsonDecodeError | other name | systemExit code => exact h

theorem refreshApp_lastRefresh (start finish : ℤ) (w : Process F)
    (h : ¬ start - w.host.lastRefresh < settings.rateLimitSeconds * 10 ^ 6) :
    wp env (refreshApp lib settings start finish) (fun served w' => served ≠ .early ∧ w'.host.lastRefresh = start)
      (fun _ w' => w'.host.lastRefresh = w.host.lastRefresh) w := by
  simp only [refreshApp, wp_bind, wp_readHost, if_neg h, wp_tryCatch]
  have hsettle : ∀ (served : Served) (w' : Process F), served ≠ .early → w'.host.lastRefresh = w.host.lastRefresh →
      wp env (if finish - start < 0 then throw valueError
        else do modifyHost (refreshed start (finish - start)); pure served : Task F Served)
        (fun served w' => served ≠ .early ∧ w'.host.lastRefresh = start)
        (fun _ w' => w'.host.lastRefresh = w.host.lastRefresh) w' := by
    intro served w' hserved hlast
    rw [wp_ite]
    split
    · exact hlast
    · exact ⟨hserved, rfl⟩
  refine wp_mono (refreshMetrics_lastRefresh w.host.lastRefresh w) (fun _ w' hkeep => ?_) fun e w' hkeep => ?_
  · exact hsettle .fresh w' nofun (hkeep rfl)
  · exact wp_mono (excuse_lastRefresh _ e w' (hkeep rfl)) (fun served w'' h => hsettle served w'' h.1 h.2)
      fun _ _ h => h

/-- A scrape that is too early asks for nothing; any other sets the time of the refresh when it
completes one. -/
def Settled (settings : Settings) (w : Process F) (scrape : Scrape) (v : Visit × Process F) : Prop :=
  v.1.start = scrape.start ∧
    (v.1.calls = 0 ∧ v.1.isRefresh = false ∧ v.2 = w ∨
      w.host.lastRefresh + settings.rateLimitSeconds * 10 ^ 6 ≤ scrape.start ∧
        v.2.host.lastRefresh = if v.1.isRefresh then scrape.start else w.host.lastRefresh)

theorem visit_settled (w : Process F) (scrape : Scrape) :
    Settled settings w scrape (visit lib settings env w scrape) := by
  by_cases hearly : scrape.start - w.host.lastRefresh < settings.rateLimitSeconds * 10 ^ 6
  · have hserved : wp env (refreshApp lib settings scrape.start scrape.finish)
        (fun served w' => served = .early ∧ w' = w) (fun _ _ => False) w := by
      simp only [refreshApp, wp_bind, wp_readHost, if_pos hearly]
      exact ⟨rfl, rfl⟩
    refine visit_of_wp _ hserved ?_ nofun
    rintro _ _ ⟨rfl, rfl⟩
    exact ⟨rfl, .inl ⟨Nat.sub_self _, rfl, rfl⟩⟩
  · have hlate : w.host.lastRefresh + settings.rateLimitSeconds * 10 ^ 6 ≤ scrape.start := by omega
    refine visit_of_wp _ (refreshApp_lastRefresh _ _ w hearly) ?_ ?_
    · rintro served w' ⟨hserved, hlast⟩
      refine ⟨rfl, .inr ⟨hlate, ?_⟩⟩
      cases served with
      | early => exact absurd rfl hserved
      | fresh | excused name => exact hlast
    · intro e w' hlast
      exact ⟨rfl, .inr ⟨hlate, hlast⟩⟩

theorem calls_late (hlimit : 0 ≤ settings.rateLimitSeconds) {w : Process F} {scrapes : List Scrape} {v : Visit}
    (hv : v ∈ visits lib settings env w scrapes) (hcalls : v.calls ≠ 0) :
    w.host.lastRefresh + settings.rateLimitSeconds * 10 ^ 6 ≤ v.start := by
  induction scrapes generalizing w with
  | nil => cases hv
  | cons scrape scrapes ih =>
    obtain ⟨hstart, hcases⟩ := @visit_settled F lib settings env w scrape
    rcases List.mem_cons.1 hv with rfl | hv
    · rcases hcases with ⟨hnone, -, -⟩ | ⟨hlate, -⟩
      · exact absurd hnone hcalls
      · rw [hstart]
        exact hlate
    · have hrest := ih hv
      rcases hcases with ⟨-, -, hsame⟩ | ⟨hlate, hlast⟩
      · rw [hsame] at hrest
        exact hrest
      · rw [hlast] at hrest
        split at hrest
        · omega
        · exact hrest

/-- Whatever the node and the clock do: after a scrape that has completed a refresh, the node is
not asked before the rate limit has passed since that scrape came. -/
theorem visits_spaced (hlimit : 0 ≤ settings.rateLimitSeconds) (w : Process F) (scrapes : List Scrape) :
    (visits lib settings env w scrapes).Pairwise fun v v' =>
      v.isRefresh → v'.calls ≠ 0 → v.start + settings.rateLimitSeconds * 10 ^ 6 ≤ v'.start := by
  induction scrapes generalizing w with
  | nil => exact .nil
  | cons scrape scrapes ih =>
    refine .cons (fun v' hv' hrefresh hcalls => ?_) (ih _)
    obtain ⟨hstart, hcases⟩ := @visit_settled F lib settings env w scrape
    have hlate := calls_late hlimit hv' hcalls
    rcases hcases with ⟨-, hnone, -⟩ | ⟨-, hlast⟩
    · rw [hnone] at hrefresh
      cases hrefresh
    · rw [hlast, if_pos hrefresh] at hlate
      rw [hstart]
      exact hlate

def wholeNumber : Data → Except Exc ℤ
  | .int n => .ok n
  | _ => .error typeError

/-- The library's numbers for a node that answers with integers. -/
def exactLibrary : Library ℚ where
  zero := 0
  int := wholeNumber
  float value := Int.cast <$> wholeNumber value
  coins value := (fun n : ℤ => (n : ℚ) / 10 ^ 8) <$> wholeNumber value
  nonzero t := t ≠ ['0']
  printable _ := true
  validName _ := true

/-- A node that cannot be reached. -/
def silentNode : Environment Call Answer := fun _ _ =>
  ⟨[], .error (.retryError "riprova.exceptions.MaxRetriesExceeded".toList)⟩

def defaultSettings : Settings where
  smartFees := [2, 3, 5, 20]
  hashpsBlocks := [-1, 1, 120]
  banAddressMetrics := false
  rateLimitSeconds := 5

def sampleScrapes : List Scrape := [⟨10000000, 10900000⟩, ⟨14999999, 15000000⟩, ⟨15000000, 15100000⟩]

/-- The scrape in the middle comes too early. -/
theorem visits_spaced_sampleScrapes :
    (visits exactLibrary defaultSettings silentNode (initial exactLibrary defaultSettings) sampleScrapes).Pairwise
      (fun v v' => v.isRefresh → v'.calls ≠ 0 → v.start + 5 * 10 ^ 6 ≤ v'.start) ∧
    (visits exactLibrary defaultSettings silentNode (initial exactLibrary defaultSettings) sampleScrapes).map
      (fun v => (v.isRefresh, v.calls)) = [(true, 1), (false, 0), (true, 1)] := by
  have hlimit : 0 ≤ defaultSettings.rateLimitSeconds := by decide
  exact ⟨visits_spaced hlimit _ _, by decide +kernel⟩

section
variable {I : Process F → Prop} {S : Series → Prop}

theorem excuse_stays (hcounted : ∀ (w : Process F) names, I w → I ⟨w.history, countErrors names w.host⟩) (e : Exc) :
    Stays env (Preserves I) (excuse e : Task F Served) := by
  cases e with
  | retryError name | jsonRpcError name =>
    exact (Stays.modifyHost fun w hI => hcounted w [name] hI).bind fun _ => .pure _
  | jsonDecodeError | other name | systemExit code => exact .throw _

/-- What refreshes keep, and what is noted about them, holds after all runs. -/
theorem run_preserves (hrefresh : Stays env (Preserves I) (refreshMetrics lib settings))
    (hcounted : ∀ (w : Process F) names, I w → I ⟨w.history, countErrors names w.host⟩)
    (hrefreshed : ∀ (w : Process F) start duration, I w → I ⟨w.history, refreshed start duration w.host⟩)
    {w : Process F} (hw : I w) (scrapes : List Scrape) : I (run lib settings env w scrapes) := by
  induction scrapes generalizing w with
  | nil => exact hw
  | cons scrape scrapes ih =>
    have hstays : Stays env (Preserves I) (refreshApp lib settings scrape.start scrape.finish) := by
      refine Stays.readHost.bind fun s => .ite (.pure _) ?_
      refine ((hrefresh.bind fun _ => .pure _).tryCatch fun e => excuse_stays hcounted e).bind fun _ => ?_
      exact .ite (.throw _) ((Stays.modifyHost fun w hI => hrefreshed w _ _ hI).bind fun _ => .pure _)
    have hvisit : I (visit lib settings env w scrape).2 :=
      visit_of_wp (fun v => I v.2) (hstays w) (fun _ _ hkeep => hkeep hw) fun _ _ hkeep => hkeep hw
    exact ih hvisit

end

def blockAsked (call : Call) : Option Str :=
  if call.method = "getblockstats".toList then
    match call.params with
    | .str blockHash :: _ => some blockHash
    | _ => none
  else none

/-- What `getblockstats` makes of an answer, if no signal cuts it short. -/
def blockMade (answer : Answer) : Option Data :=
  match answer.result with
  | .ok block => some block
  | .error (.systemExit _) => none
  | .error _ => some .none

/-- The blocks that the node was asked for and what was made of its answers, latest first. -/
def retrieved (env : Environment Call Answer) : List Call → List (Str × Data)
  | [] => []
  | call :: history =>
    match blockAsked call, blockMade (env history call) with
    | some blockHash, some block => (blockHash, block) :: retrieved env history
    | _, _ => retrieved env history

/-- The latest block is remembered, and was not remembered when it was asked for. -/
structure Remembers (env : Environment Call Answer) (w : Process F) : Prop where
  latest : w.host.blockstats = (retrieved env w.history).head?
  anew : (retrieved env w.history).IsChain fun e e' => e.1 ≠ e'.1

theorem retrieved_other {history : List Call} {method : Str} {params : List Data}
    (hne : method ≠ "getblockstats".toList) :
    retrieved env (⟨method, params⟩ :: history) = retrieved env history := by
  rw [retrieved, blockAsked, if_neg hne]

theorem Remembers.mk_eq {w w' : Process F} (h : Remembers env w)
    (hhistory : retrieved env w'.history = retrieved env w.history)
    (hblock : w'.host.blockstats = w.host.blockstats) : Remembers env w' where
  latest := by rw [hblock, hhistory, h.latest]
  anew := by
    rw [hhistory]
    exact h.anew

/-- A block is asked for when it is not the one that is remembered. -/
theorem recall_none {s : Exporter F} {blockHash : Str} (h : s.recall blockHash = none) :
    ∀ e ∈ s.blockstats, e.1 ≠ blockHash := by
  intro e he heq
  rw [Exporter.recall, he, Option.bind_some, if_pos heq] at h
  cases h

theorem getblockstats_remembers (blockHash : Str) :
    Stays env (Preserves (Remembers env)) (getblockstats blockHash : Task F Data) := by
  intro w
  simp only [getblockstats, wp_bind, wp_readHost]
  cases hrecall : w.host.recall blockHash with
  | some block => exact fun h => h
  | none =>
    have hfresh := recall_none hrecall
    simp only [retrieveBlock, wp_bind, wp_tryCatch, bitcoinrpc, wp_ask, wp_modifyHost]
    set call : Call := ⟨"getblockstats".toList, [.str blockHash, .list (blockFields.map .str)]⟩ with hcall
    have hhash : blockAsked call = some blockHash := rfl
    have hdone : ∀ (block : Data) (s : Exporter F), blockMade (env w.history call) = some block →
        Remembers env w → Remembers env ⟨call :: w.history, remember blockHash block s⟩ := by
      intro block s hblock h
      have hcons : retrieved env (call :: w.history) = (blockHash, block) :: retrieved env w.history := by
        rw [retrieved, hhash, hblock]
      refine ⟨?_, ?_⟩
      · rw [hcons]
        rfl
      · rw [hcons, List.isChain_cons]
        refine ⟨fun e he => ?_, h.anew⟩
        rw [← h.latest] at he
        exact (hfresh e he).symm
    cases hresult : (env w.history call).result with
    | ok block =>
      exact hdone block _ (by rw [blockMade, hresult])
    | error e =>
      cases e with
      | systemExit code =>
        have hnone : retrieved env (call :: w.history) = retrieved env w.history := by
          rw [retrieved, hhash, blockMade, hresult]
        exact fun h => h.mk_eq hnone rfl
      | _ => exact hdone .none _ (by rw [blockMade, hresult])

theorem remembers_respects : Respects lib env (Remembers env) fun _ => True := by
  have haloof : Aloof (F := F) (Remembers env) := fun w s hblock _ h => h.mk_eq rfl hblock
  exact haloof.respects fun w method params hne h => h.mk_eq (retrieved_other hne) rfl

/-- In every run the node is asked for a block only if it is another one than it was asked for
before, and the exporter remembers the last. -/
theorem run_remembers (scrapes : List Scrape) :
    Remembers env (run lib settings env (initial lib settings) scrapes) := by
  have hstart : Remembers env (initial lib settings) := ⟨rfl, .nil⟩
  exact run_preserves (remembers_respects.refreshMetrics getblockstats_remembers) (fun _ _ h => h.mk_eq rfl rfl)
    (fun _ _ _ h => h.mk_eq rfl rfl) hstart scrapes

end BitcoinRpcOperator.MonitorRuns
