import BitcoinRpcOperator.MonitorGauges

/-!
# What the gauges say

The purpose of the exporter, as a table: each gauge has a call to the node and a reading of its
answer. After a refresh that goes through, the gauges agree with what the node has answered in it,
whatever there was before; those of the latest block with the answer that is remembered of it.
-/

namespace BitcoinRpcOperator.MonitorReadings
open Text PythonValues Dictionaries FallibleProcedures MonitorRefresh MonitorRuns MonitorGauges

/-- What a gauge is for. -/
structure Reading (F : Type) where
  gauge : Str
  call : Call
  /-- Whether an answer says anything about it. -/
  present : Data → Bool
  value : Data → Except Exc F

def Reading.series {F : Type} (r : Reading F) : Series := ⟨r.gauge, []⟩

/-- The gauge is what the answer says, if it says anything. -/
def Reading.Agrees {F : Type} (r : Reading F) (s : Exporter F) (answer : Answer) : Prop :=
  ∃ v, answer.result = .ok v ∧
    (r.present v = true → ∃ x, r.value v = .ok x ∧ s.gauges.get r.series = some x)

section
variable {F : Type} (lib : Library F)

def call (method : String) : Call := ⟨method.toList, []⟩

def fieldReadings (c : Call) (part : Data → Except Exc Data) (fields : List (String × String)) : List (Reading F) :=
  fields.map fun e => ⟨e.1.toList, c, fun _ => true, fun v => part v >>= fun info => field lib info e.2.toList⟩

/-- A gauge for a field that may be missing. -/
def optionalReading (c : Call) (gauge key : String) : Reading F :=
  ⟨gauge.toList, c, hasKey key.toList, fun v => field lib v key.toList⟩

def numberReading (c : Call) (gauge : String) (number : Data → Except Exc ℤ) : Reading F :=
  ⟨gauge.toList, c, fun _ => true, fun v => number v >>= fun n => lib.float (.int n)⟩

def statusReadings : List (Reading F) :=
  numberReading lib (call "uptime") "bitcoin_uptime" lib.int ::
    (fieldReadings lib (call "getblockchaininfo") .ok [("bitcoin_blocks", "blocks")] ++
    fieldReadings lib (call "getnetworkinfo") .ok [("bitcoin_peers", "connections")] ++
    [optionalReading lib (call "getnetworkinfo") "bitcoin_conn_in" "connections_in"] ++
    [optionalReading lib (call "getnetworkinfo") "bitcoin_conn_out" "connections_out"] ++
    fieldReadings lib (call "getblockchaininfo") .ok [("bitcoin_difficulty", "difficulty")] ++
    fieldReadings lib (call "getnetworkinfo") .ok [("bitcoin_server_version", "version"),
      ("bitcoin_protocol_version", "protocolversion")] ++
    fieldReadings lib (call "getblockchaininfo") .ok [("bitcoin_size_on_disk", "size_on_disk"),
      ("bitcoin_verification_progress", "verificationprogress")])

def bannedReadings : List (Reading F) := [numberReading lib (call "listbanned") "bitcoin_banned_peers" len]

def memoryReadings : List (Reading F) :=
  fieldReadings lib (call "getchaintxstats") .ok [("bitcoin_txcount", "txcount")] ++
    numberReading lib (call "getchaintips") "bitcoin_num_chaintips" len ::
    (fieldReadings lib ⟨"getmemoryinfo".toList, [.str "stats".toList]⟩ (subscript "locked".toList)
      [("bitcoin_meminfo_used", "used"), ("bitcoin_meminfo_free", "free"), ("bitcoin_meminfo_total", "total"),
        ("bitcoin_meminfo_locked", "locked"), ("bitcoin_meminfo_chunks_used", "chunks_used"),
        ("bitcoin_meminfo_chunks_free", "chunks_free")] ++
    fieldReadings lib (call "getmempoolinfo") .ok [("bitcoin_mempool_bytes", "bytes"),
      ("bitcoin_mempool_size", "size"), ("bitcoin_mempool_usage", "usage"),
      ("bitcoin_mempool_minfee", "mempoolminfee")] ++
    [optionalReading lib (call "getmempoolinfo") "bitcoin_mempool_unbroadcast" "unbroadcastcount"] ++
    fieldReadings lib (call "getnettotals") .ok [("bitcoin_total_bytes_recv", "totalbytesrecv"),
      ("bitcoin_total_bytes_sent", "totalbytessent")])

def activeReadings : List (Reading F) :=
  [numberReading lib (call "getrpcinfo") "bitcoin_rpc_active" fun v =>
    subscript "active_commands".toList v >>= fun commands => (· - 1) <$> len commands]

def smartFeeReading (n : ℤ) : Reading F where
  gauge := Family.smartFee.gauge n
  call := ⟨"estimatesmartfee".toList, [.int n]⟩
  present v := match getOr "feerate".toList .none v with
    | .ok feerate => !isNone feerate
    | .error _ => true
  value v := getOr "feerate".toList .none v >>= lib.float

def hashpsReading (n : ℤ) : Reading F where
  gauge := Family.hashps.gauge n
  call := ⟨"getnetworkhashps".toList, [.int n]⟩
  present _ := true
  value := lib.float

/-- The gauges that are set before the warnings are looked at. -/
def countedReadings (settings : Settings) : List (Reading F) :=
  statusReadings lib ++ settings.smartFees.map (smartFeeReading lib) ++
    settings.hashpsBlocks.map (hashpsReading lib) ++ bannedReadings lib

/-- All gauges without labels but those of the latest block. -/
def readings (settings : Settings) : List (Reading F) :=
  countedReadings lib settings ++ memoryReadings lib ++ activeReadings lib

end

variable {F : Type} {lib : Library F} {settings : Settings} {env : Environment Call Answer}

/-- Since `w₀` the node has answered these calls so. -/
def Told (env : Environment Call Answer) (w₀ : Process F) (calls : List (Call × Data)) (w : Process F) : Prop :=
  w₀.history <:+ w.history ∧ ∀ e ∈ calls, Answered env (fun answer => answer.result = .ok e.2) w₀ w e.1

section
variable {w₀ w w' : Process F} {calls : List (Call × Data)} {α : Type}

/-- An answer stands when the history grows. -/
theorem answered_mono {P P' : Answer → Prop} {c : Call} (h : Answered env P w₀ w c)
    (hPP' : ∀ answer, P answer → P' answer) (hgrow : w.history <:+ w'.history) : Answered env P' w₀ w' c := by
  obtain ⟨later, hist, hhist, hsuffix, hP⟩ := h
  obtain ⟨more, hmore⟩ := hgrow
  exact ⟨more ++ later, hist, by rw [← hmore, hhist, List.append_assoc], hsuffix, hPP' _ hP⟩

theorem Told.mono (h : Told env w₀ calls w) (hgrow : w.history <:+ w'.history) : Told env w₀ calls w' :=
  ⟨h.1.trans hgrow, fun e he => answered_mono (h.2 e he) (fun _ => id) hgrow⟩

/-- A call that is answered adds to what the node has said. -/
theorem wp_told {method : Str} {params : List Data} {f : Data → Task F α} {Q : α → Process F → Prop}
    (hw : Told env w₀ calls w)
    (h : ∀ v w' names, Told env w₀ ((⟨method, params⟩, v) :: calls) w' → w.history <:+ w'.history →
      w'.host = countErrors names w.host → wp env (f v) Q (fun _ _ => True) w') :
    wp env (bitcoinrpc method params >>= f) Q (fun _ _ => True) w := by
  simp only [bitcoinrpc, wp_bind, wp_ask, wp_modifyHost]
  cases hresult : (env w.history ⟨method, params⟩).result with
  | error e => exact trivial
  | ok v =>
    have hgrow : w.history <:+ ⟨method, params⟩ :: w.history := List.suffix_cons _ _
    refine h v _ _ ⟨hw.1.trans hgrow, ?_⟩ hgrow rfl
    rw [List.forall_mem_cons]
    exact ⟨⟨[], w.history, rfl, hw.1, hresult⟩, fun e he => answered_mono (hw.2 e he) (fun _ => id) hgrow⟩

theorem wp_orRaise {x : Except Exc α} {β : Type} {f : α → Task F β} {Q : β → Process F → Prop}
    (h : ∀ a, x = .ok a → wp env (f a) Q (fun _ _ => True) w) :
    wp env (orRaise x >>= f) Q (fun _ _ => True) w := by
  cases x with
  | error e => exact trivial
  | ok a => exact h a rfl

/-- Whether it is asked for or recalled, the block is the one that is remembered. -/
theorem wp_getblockstats {blockHash : Str} {f : Data → Task F α} {Q : α → Process F → Prop}
    (hw : Told env w₀ calls w)
    (h : ∀ block w', Told env w₀ calls w' → w'.host.blockstats = some (blockHash, block) →
      wp env (f block) Q (fun _ _ => True) w') :
    wp env (getblockstats blockHash >>= f) Q (fun _ _ => True) w := by
  simp only [getblockstats, wp_bind, wp_readHost]
  cases hrecall : w.host.recall blockHash with
  | some block =>
    refine h block w hw ?_
    rw [Exporter.recall, Option.bind_eq_some_iff] at hrecall
    obtain ⟨⟨hash, block'⟩, hblock, hentry⟩ := hrecall
    by_cases hhash : hash = blockHash
    · rw [if_pos hhash] at hentry
      obtain rfl : block' = block := Option.some.inj hentry
      rw [hblock, hhash]
    · rw [if_neg hhash] at hentry
      cases hentry
  | none =>
    simp only [retrieveBlock, wp_bind, wp_tryCatch, bitcoinrpc, wp_ask, wp_modifyHost]
    set c : Call := ⟨"getblockstats".toList, [.str blockHash, .list (blockFields.map .str)]⟩
    have hgrow : Told env w₀ calls (⟨c :: w.history, w.host⟩ : Process F) := hw.mono (List.suffix_cons _ _)
    cases (env w.history c).result with
    | ok block => exact h block _ hgrow rfl
    | error e =>
      cases e with
      | systemExit code => exact trivial
      | _ => exact h .none _ hgrow rfl

end

/-- What was collected is what the node has said since `w₀`. -/
structure CollectedFrom (lib : Library F) (env : Environment Call Answer) (w₀ : Process F) (c : Collected)
    (w : Process F) : Prop where
  uptime : ∃ v, Told env w₀ [(call "uptime", v)] w ∧ lib.int v = .ok c.uptime
  meminfo : ∃ v, Told env w₀ [(⟨"getmemoryinfo".toList, [.str "stats".toList]⟩, v)] w ∧
    subscript "locked".toList v = .ok c.meminfo
  blockchaininfo : Told env w₀ [(call "getblockchaininfo", c.blockchaininfo)] w
  networkinfo : Told env w₀ [(call "getnetworkinfo", c.networkinfo)] w
  chaintips : ∃ v, Told env w₀ [(call "getchaintips", v)] w ∧ len v = .ok c.chaintips
  mempool : Told env w₀ [(call "getmempoolinfo", c.mempool)] w
  nettotals : Told env w₀ [(call "getnettotals", c.nettotals)] w
  rpcinfo : Told env w₀ [(call "getrpcinfo", c.rpcinfo)] w
  txstats : Told env w₀ [(call "getchaintxstats", c.txstats)] w
  banned : Told env w₀ [(call "listbanned", c.banned)] w
  latest : ∃ v, subscript "bestblockhash".toList c.blockchaininfo = .ok v ∧
    w.host.blockstats = some (text lib.printable v, c.latestBlockstats)

theorem collect_from (w : Process F) :
    wp env (collect lib) (CollectedFrom lib env w) (fun _ _ => True) w := by
  have hstart : Told env w [] w := ⟨List.suffix_rfl, List.forall_mem_nil _⟩
  refine wp_told hstart fun uptime w₁ _ h₁ _ _ => wp_orRaise fun n hn => ?_
  refine wp_told h₁ fun memory w₂ _ h₂ _ _ => wp_orRaise fun locked hlocked => ?_
  refine wp_told h₂ fun blockchaininfo w₃ _ h₃ _ _ => ?_
  refine wp_told h₃ fun networkinfo w₄ _ h₄ _ _ => ?_
  refine wp_told h₄ fun tips w₅ _ h₅ _ _ => wp_orRaise fun chaintips hchaintips => ?_
  refine wp_told h₅ fun mempool w₆ _ h₆ _ _ => ?_
  refine wp_told h₆ fun nettotals w₇ _ h₇ _ _ => ?_
  refine wp_told h₇ fun rpcinfo w₈ _ h₈ _ _ => ?_
  refine wp_told h₈ fun txstats w₉ _ h₉ _ _ => wp_orRaise fun blockHash hblockHash => ?_
  refine wp_getblockstats h₉ fun block w₁₀ h₁₀ hblock => ?_
  refine wp_told h₁₀ fun banned w₁₁ names h _ hhost => ?_
  have htold : ∀ {e}, e ∈ _ → Told env w [e] w₁₁ := fun he => ⟨h.1, by
    intro e' he'
    rw [List.mem_singleton.1 he']
    exact h.2 _ he⟩
  exact
    { uptime := ⟨uptime, htold (by simp [call]), hn⟩
      meminfo := ⟨memory, htold (by simp), hlocked⟩
      blockchaininfo := htold (by simp [call])
      networkinfo := htold (by simp [call])
      chaintips := ⟨tips, htold (by simp [call]), hchaintips⟩
      mempool := htold (by simp [call])
      nettotals := htold (by simp [call])
      rpcinfo := htold (by simp [call])
      txstats := htold (by simp [call])
      banned := htold (by simp [call])
      latest := ⟨blockHash, hblockHash, by rw [hhost, ← hblock]; rfl⟩ }

/-- The gauges of these readings agree with what the node has said since `w₀`; all was collected
by `w₁`. -/
structure Agreed (env : Environment Call Answer) (w₀ w₁ : Process F) (rs : List (Reading F)) (w : Process F) :
    Prop where
  named : Named w.host
  grown : w₁.history <:+ w.history
  agree : ∀ r ∈ rs, Answered env (r.Agrees w.host) w₀ w r.call

section
variable {w₀ w₁ w w' : Process F} {rs rs' : List (Reading F)}

theorem Reading.Agrees.mono {r : Reading F} {s s' : Exporter F} {answer : Answer} (h : r.Agrees s answer)
    (hsame : s'.gauges.get r.series = s.gauges.get r.series) : r.Agrees s' answer := by
  obtain ⟨v, hresult, hvalue⟩ := h
  refine ⟨v, hresult, fun hpresent => ?_⟩
  rw [hsame]
  exact hvalue hpresent

theorem Agreed.mono (h : Agreed env w₀ w₁ rs w) (hnamed : Named w'.host) (hgrow : w.history <:+ w'.history)
    (hsame : ∀ r ∈ rs, w'.host.gauges.get r.series = w.host.gauges.get r.series) : Agreed env w₀ w₁ rs w' :=
  ⟨hnamed, h.grown.trans hgrow, fun r hr => answered_mono (h.agree r hr) (fun _ ha => ha.mono (hsame r hr)) hgrow⟩

theorem Agreed.adjusted (h : Agreed env w₀ w₁ rs w) {series : Series} (hseries : ∀ r ∈ rs, r.series ≠ series)
    (f : Option F → F) : Agreed env w₀ w₁ rs ⟨w.history, adjust series f w.host⟩ :=
  h.mono (h.named.of_eq rfl rfl) List.suffix_rfl fun r hr => Dictionary.get_update_ne _ (hseries r hr)

/-- They go on to agree as long as their gauges are not set. -/
theorem agreed_respects : Respects lib env (Agreed env w₀ w₁ rs) fun series => ∀ r ∈ rs, r.series ≠ series where
  call method params _ := bitcoinrpc_stays fun w h =>
    h.mono (h.named.of_eq rfl rfl) (List.suffix_cons _ _) fun _ _ => rfl
  adjusted _ f _ hS h := h.adjusted hS f
  numbered family n value hS := by
    refine stays_of_wp fun w h => ?_
    simp only [setTo, wp_bind]
    refine wp_mono (gaugeFor_spec family n h.named) ?_ ?_
    · rintro name w₂ ⟨rfl, hnamed, hhistory, hframe⟩
      have h₂ : Agreed env w₀ w₁ rs w₂ := by
        refine h.mono hnamed (by rw [hhistory]) fun r hr => hframe _ fun hname => ?_
        exact hS r hr (congrArg (Series.mk · []) hname)
      cases value with
      | error e => exact h₂
      | ok x => exact h₂.adjusted hS fun _ => x
    · rintro e _ ⟨-, rfl⟩
      exact h
  warned w h := h.mono (h.named.of_eq rfl rfl) List.suffix_rfl fun _ _ => rfl

theorem Agreed.append (h : Agreed env w₀ w₁ rs w) (h' : ∀ r ∈ rs', Answered env (r.Agrees w.host) w₀ w r.call) :
    Agreed env w₀ w₁ (rs ++ rs') w :=
  ⟨h.named, h.grown, fun r hr => (List.mem_append.1 hr).elim (h.agree r) (h' r)⟩

/-- What a row says is in its gauge. -/
def Shown (row : Row F) (s : Exporter F) : Prop := ∃ x, row.2 = .ok x ∧ s.gauges.get row.series = some x

/-- After all rows have been set, each is in its gauge, and no other gauge has changed. -/
theorem publish_shown {rows : List (Row F)} (hnames : (rows.map Prod.fst).Nodup) (w : Process F) :
    wp env (publish rows) (fun _ w' => w'.history = w.history ∧ (∀ row ∈ rows, Shown row w'.host) ∧
      ∀ series, (∀ row ∈ rows, row.series ≠ series) → w'.host.gauges.get series = w.host.gauges.get series)
      (fun _ _ => True) w := by
  induction rows generalizing w with
  | nil => exact ⟨rfl, List.forall_mem_nil _, fun _ _ => rfl⟩
  | cons row rows ih =>
    rw [List.map_cons, List.nodup_cons] at hnames
    obtain ⟨hnew, hnames⟩ := hnames
    rw [publish]
    refine wp_orRaise fun x hx => ?_
    simp only [assign, wp_bind, wp_modifyHost]
    refine wp_mono (ih hnames _) ?_ fun _ _ _ => trivial
    rintro _ w' ⟨hhistory, hshown, hframe⟩
    refine ⟨hhistory, ?_, fun series hseries => ?_⟩
    · rw [List.forall_mem_cons]
      refine ⟨⟨x, hx, ?_⟩, hshown⟩
      rw [hframe]
      · exact Dictionary.get_update_self _
      · intro row' hrow' heq
        exact hnew (List.mem_map.2 ⟨row', hrow', congrArg Series.name heq⟩)
    · rw [List.forall_mem_cons] at hseries
      rw [hframe series hseries.2]
      exact Dictionary.get_update_ne _ hseries.1.symm

/-- The rows say of the gauges of these readings what the node has said by `w₁`. -/
def Sourced (env : Environment Call Answer) (w₀ w₁ : Process F) (rows : List (Row F)) (rs : List (Reading F)) : Prop :=
  ∀ r ∈ rs, ∃ v, Told env w₀ [(r.call, v)] w₁ ∧ (r.present v = true → (r.gauge, r.value v) ∈ rows)

/-- Readings of other gauges go on to agree. -/
theorem publish_keeps {rows : List (Row F)} (hapart : ∀ r ∈ rs, r.gauge ∉ rows.map Prod.fst) :
    Stays env (Preserves (Agreed env w₀ w₁ rs)) (publish rows) := by
  refine publish_stays fun row hrow x _ h => h.adjusted (fun r hr heq => ?_) fun _ => x
  exact hapart r hr (List.mem_map.2 ⟨row, hrow, congrArg Series.name heq.symm⟩)

/-- Rows that are made of what the node has said add readings that agree. -/
theorem publish_agreed {rows : List (Row F)} (h : Agreed env w₀ w₁ rs w) (hnames : (rows.map Prod.fst).Nodup)
    (hapart : ∀ r ∈ rs, r.gauge ∉ rows.map Prod.fst) (hrows : Sourced env w₀ w₁ rows rs') :
    wp env (publish rows) (fun _ => Agreed env w₀ w₁ (rs ++ rs')) (fun _ _ => True) w := by
  have hkeep : Stays env (Preserves (Agreed env w₀ w₁ rs)) (publish rows) := publish_keeps hapart
  refine wp_mono (wp_and (hkeep w) (publish_shown hnames w)) ?_ fun _ _ _ => trivial
  rintro _ w' ⟨hagreed, -, hshown, -⟩
  refine (hagreed h).append fun r hr => ?_
  obtain ⟨v, htold, hrow⟩ := hrows r hr
  refine answered_mono (htold.2 _ (List.mem_singleton_self _)) (fun answer hanswer => ?_) (hagreed h).grown
  exact ⟨v, hanswer, fun hpresent => hshown _ (hrow hpresent)⟩

/-- The gauge of a number is set to what the node has just said. -/
theorem setTo_agreed {family : Family} {n : ℤ} {r : Reading F} {v : Data} (hgauge : r.gauge = family.gauge n)
    (hnamed : Named w.host) (hgrown : w₁.history <:+ w.history) (htold : Told env w₀ [(r.call, v)] w) :
    wp env (setTo (family.gaugeFor lib n) (r.value v)) (fun _ => Agreed env w₀ w₁ [r]) (fun _ _ => True) w := by
  simp only [setTo, wp_bind]
  refine wp_mono (gaugeFor_spec family n hnamed) ?_ fun _ _ _ => trivial
  rintro name w₂ ⟨rfl, hnamed₂, hhistory, -⟩
  have hget : ∀ x, ((adjust ⟨family.gauge n, []⟩ (fun _ => x) w₂.host).gauges.get r.series) = some x := by
    intro x
    rw [Reading.series, hgauge]
    exact Dictionary.get_update_self _
  cases hvalue : r.value v with
  | error e => exact trivial
  | ok x =>
    refine ⟨hnamed₂.of_eq rfl rfl, ?_, fun r' hr' => ?_⟩
    · rw [hhistory]
      exact hgrown
    · obtain rfl := List.mem_singleton.1 hr'
      refine answered_mono (htold.2 _ (List.mem_singleton_self _)) (fun answer hanswer => ?_) (by rw [hhistory])
      exact ⟨v, hanswer, fun _ => ⟨x, hvalue, hget x⟩⟩

theorem doSmartfee_agreed (hw : w₀.history <:+ w₁.history) (n : ℤ) (h : Agreed env w₀ w₁ [] w) :
    wp env (doSmartfee lib n) (fun _ => Agreed env w₀ w₁ [smartFeeReading lib n]) (fun _ _ => True) w := by
  have hstart : Told env w₀ [] w := ⟨hw.trans h.grown, List.forall_mem_nil _⟩
  rw [doSmartfee]
  refine wp_told hstart fun v w₂ names htold hgrow hhost => wp_orRaise fun feerate hfeerate => ?_
  have hnamed : Named w₂.host := by
    rw [hhost]
    exact h.named.of_eq rfl rfl
  have hvalue : (smartFeeReading lib n).value v = lib.float feerate := by
    simp only [smartFeeReading, hfeerate]
    rfl
  rw [wp_runIf]
  split
  · rw [← hvalue]
    exact setTo_agreed rfl hnamed (h.grown.trans hgrow) htold
  · rename_i hnone
    refine ⟨hnamed, h.grown.trans hgrow, fun r hr => ?_⟩
    obtain rfl := List.mem_singleton.1 hr
    refine answered_mono (htold.2 _ (List.mem_singleton_self _)) (fun answer hanswer => ?_) List.suffix_rfl
    refine ⟨v, hanswer, fun hpresent => absurd hpresent ?_⟩
    simp only [smartFeeReading, hfeerate]
    simpa using hnone

theorem doHashpsGauge_agreed (hw : w₀.history <:+ w₁.history) (n : ℤ) (h : Agreed env w₀ w₁ [] w) :
    wp env (doHashpsGauge lib n) (fun _ => Agreed env w₀ w₁ [hashpsReading lib n]) (fun _ _ => True) w := by
  have hstart : Told env w₀ [] w := ⟨hw.trans h.grown, List.forall_mem_nil _⟩
  rw [doHashpsGauge]
  refine wp_told hstart fun v w₂ names htold hgrow hhost => wp_orRaise fun hps hhps => ?_
  have hnamed : Named w₂.host := by
    rw [hhost]
    exact h.named.of_eq rfl rfl
  rw [← hhps]
  exact setTo_agreed (r := hashpsReading lib n) rfl hnamed (h.grown.trans hgrow) htold

section
variable {task : ℤ → Task F Unit} {reading : ℤ → Reading F}

/-- A loop over numbers, each of which sets a gauge of its own. -/
structure Loops (env : Environment Call Answer) (w₀ w₁ : Process F) (task : ℤ → Task F Unit)
    (reading : ℤ → Reading F) : Prop where
  adds : ∀ n w, Agreed env w₀ w₁ [] w →
    wp env (task n) (fun _ => Agreed env w₀ w₁ [reading n]) (fun _ _ => True) w
  keeps : ∀ rs n, (∀ r ∈ rs, r.series ≠ (reading n).series) →
    Stays env (Preserves (Agreed env w₀ w₁ rs)) (task n)
  apart : ∀ m n, (reading m).series = (reading n).series → m = n

/-- The last round for a number decides. -/
theorem Loops.one (hl : Loops env w₀ w₁ task reading) {n : ℤ} {ns : List ℤ} (hn : n ∈ ns)
    (h : Agreed env w₀ w₁ [] w) :
    wp env (forEach task ns) (fun _ => Agreed env w₀ w₁ [reading n]) (fun _ _ => True) w := by
  induction ns generalizing w with
  | nil => cases hn
  | cons m ms ih =>
    rw [forEach, wp_bind]
    by_cases hlater : n ∈ ms
    · refine wp_mono (hl.keeps [] m (List.forall_mem_nil _) w) (fun _ w' hkeep => ?_) fun _ _ _ => trivial
      exact ih hlater (hkeep h)
    · obtain rfl : n = m := (List.mem_cons.1 hn).resolve_right hlater
      refine wp_mono (hl.adds n w h) (fun _ w' hadded => ?_) fun _ _ _ => trivial
      have hrest : Stays env (Preserves (Agreed env w₀ w₁ [reading n])) (forEach task ms) := by
        refine forEach_stays fun k hk => hl.keeps _ k fun r hr heq => ?_
        obtain rfl := List.mem_singleton.1 hr
        rw [hl.apart n k heq] at hlater
        exact hlater hk
      exact wp_mono (hrest w') (fun _ _ hkeep => hkeep hadded) fun _ _ _ => trivial

theorem Loops.all (hl : Loops env w₀ w₁ task reading) (ns : List ℤ)
    (hapart : ∀ r ∈ rs, ∀ n, r.series ≠ (reading n).series) (h : Agreed env w₀ w₁ rs w) :
    wp env (forEach task ns) (fun _ => Agreed env w₀ w₁ (rs ++ ns.map reading)) (fun _ _ => True) w := by
  have hkeep : Stays env (Preserves (Agreed env w₀ w₁ rs)) (forEach task ns) :=
    forEach_stays fun n _ => hl.keeps rs n fun r hr => hapart r hr n
  refine wp_mono (wp_run _ w) (fun _ w' hrun => ?_) fun _ _ _ => trivial
  have hold : Agreed env w₀ w₁ rs w' := wp_of_ok (hkeep w) hrun h
  refine hold.append fun r hr => ?_
  obtain ⟨n, hn, rfl⟩ := List.mem_map.1 hr
  have hone := hl.one hn ⟨h.named, h.grown, List.forall_mem_nil _⟩
  have hnew := wp_of_ok hone hrun
  exact hnew.agree _ (List.mem_singleton_self _)

end

theorem smartFee_loops (hw : w₀.history <:+ w₁.history) :
    Loops env w₀ w₁ (doSmartfee lib) (smartFeeReading lib) where
  adds n _ h := doSmartfee_agreed hw n h
  keeps _ _ hrs := agreed_respects.doSmartfee hrs
  apart m n heq := by
    have hname : Family.smartFee.gauge m = Family.smartFee.gauge n := congrArg Series.name heq
    exact (gauge_injective hname).2

theorem hashps_loops (hw : w₀.history <:+ w₁.history) :
    Loops env w₀ w₁ (doHashpsGauge lib) (hashpsReading lib) where
  adds n _ h := doHashpsGauge_agreed hw n h
  keeps _ _ hrs := agreed_respects.doHashpsGauge hrs
  apart m n heq := by
    have hname : Family.hashps.gauge m = Family.hashps.gauge n := congrArg Series.name heq
    exact (gauge_injective hname).2

/-- The gauges of these readings have these names, or those of numbers. -/
def Within (names : List Str) (rs : List (Reading F)) : Prop :=
  ∀ r ∈ rs, r.gauge ∈ names ∨ ∃ (family : Family) (n : ℤ), r.gauge = family.gauge n

theorem Within.append {names names' : List Str} (h : Within names rs) (h' : Within names' rs') :
    Within (names ++ names') (rs ++ rs') := by
  intro r hr
  rcases List.mem_append.1 hr with hr | hr
  · exact (h r hr).imp_left (List.mem_append_left _)
  · exact (h' r hr).imp_left (List.mem_append_right _)

theorem Within.apart {names names' : List Str} (h : Within names rs)
    (hstanding : ∀ name ∈ names', name ∈ standingGauges ++ banGauges ++ counterNames ∧ name ∉ names) :
    ∀ r ∈ rs, r.gauge ∉ names' := by
  intro r hr hmem
  rcases h r hr with hname | ⟨family, n, heq⟩
  · exact (hstanding _ hmem).2 hname
  · rw [heq] at hmem
    exact gauge_not_standing family n (hstanding _ hmem).1

theorem Within.apart_rows {names names' : List Str} {rows : List (Row F)} (h : Within names rs)
    (hrows : (rows.map Prod.fst).Sublist names')
    (hstanding : ∀ name ∈ names', name ∈ standingGauges ++ banGauges ++ counterNames ∧ name ∉ names) :
    ∀ r ∈ rs, r.gauge ∉ rows.map Prod.fst :=
  fun r hr hmem => h.apart hstanding r hr (hrows.mem hmem)

theorem gauges_statusReadings : ∀ r ∈ statusReadings lib, r.gauge ∈ statusGauges := by
  have hnames : ∀ name ∈ (statusReadings exactLibrary).map Reading.gauge, name ∈ statusGauges := by decide +kernel
  exact fun r hr => hnames r.gauge (List.mem_map_of_mem (f := Reading.gauge) hr)

theorem gauges_memoryReadings : ∀ r ∈ memoryReadings lib, r.gauge ∈ memoryGauges := by
  have hnames : ∀ name ∈ (memoryReadings exactLibrary).map Reading.gauge, name ∈ memoryGauges := by decide +kernel
  exact fun r hr => hnames r.gauge (List.mem_map_of_mem (f := Reading.gauge) hr)

theorem statusReadings_apart (family : Family) (n : ℤ) : ∀ r ∈ statusReadings lib, r.gauge ≠ family.gauge n := by
  have hstanding : ∀ name ∈ statusGauges, name ∈ standingGauges ++ banGauges ++ counterNames := by decide +kernel
  intro r hr heq
  refine gauge_not_standing family n ?_
  rw [← heq]
  exact hstanding _ (gauges_statusReadings r hr)

theorem within_numbered : Within statusGauges (statusReadings lib ++
    settings.smartFees.map (smartFeeReading lib) ++ settings.hashpsBlocks.map (hashpsReading lib)) := by
  have hstatus : Within statusGauges (statusReadings lib) := fun r hr => .inl (gauges_statusReadings r hr)
  have hmap : ∀ (family : Family) (reading : ℤ → Reading F) (ns : List ℤ),
      (∀ n, (reading n).gauge = family.gauge n) → Within [] (ns.map reading) := by
    intro family reading ns hgauge r hr
    obtain ⟨n, -, rfl⟩ := List.mem_map.1 hr
    exact .inr ⟨family, n, hgauge n⟩
  have hall := (hstatus.append (hmap .smartFee (smartFeeReading lib) settings.smartFees fun _ => rfl)).append
    (hmap .hashps (hashpsReading lib) settings.hashpsBlocks fun _ => rfl)
  rw [List.append_nil, List.append_nil] at hall
  exact hall

theorem within_banned : Within bannedGauges (bannedReadings lib) := by
  intro r hr
  obtain rfl := List.mem_singleton.1 hr
  exact .inl (List.mem_singleton_self _)

theorem within_memory : Within memoryGauges (memoryReadings lib) := fun r hr => .inl (gauges_memoryReadings r hr)

section
variable {c : Collected}

theorem Sourced.append {rows rows' : List (Row F)} (h : Sourced env w₀ w₁ rows rs)
    (h' : Sourced env w₀ w₁ rows' rs') : Sourced env w₀ w₁ (rows ++ rows') (rs ++ rs') := by
  intro r hr
  rcases List.mem_append.1 hr with hr | hr
  · obtain ⟨v, htold, hrow⟩ := h r hr
    exact ⟨v, htold, fun hpresent => List.mem_append_left _ (hrow hpresent)⟩
  · obtain ⟨v, htold, hrow⟩ := h' r hr
    exact ⟨v, htold, fun hpresent => List.mem_append_right _ (hrow hpresent)⟩

theorem Sourced.cons {row : Row F} {rows : List (Row F)} {r : Reading F} (h : Sourced env w₀ w₁ [row] [r])
    (h' : Sourced env w₀ w₁ rows rs) : Sourced env w₀ w₁ (row :: rows) (r :: rs) :=
  h.append h'

theorem sourced_fields {query : Call} {part : Data → Except Exc Data} {v info : Data}
    (fields : List (String × String)) (htold : Told env w₀ [(query, v)] w₁) (hpart : part v = .ok info) :
    Sourced env w₀ w₁ (rowsOf lib info fields) (fieldReadings lib query part fields) := by
  intro r hr
  obtain ⟨e, he, rfl⟩ := List.mem_map.1 hr
  refine ⟨v, htold, fun _ => ?_⟩
  have hrow : (e.1.toList, field lib info e.2.toList) ∈ rowsOf lib info fields := List.mem_map_of_mem he
  change (e.1.toList, part v >>= fun info => field lib info e.2.toList) ∈ rowsOf lib info fields
  rw [hpart]
  exact hrow

theorem sourced_optional {query : Call} {v : Data} (gauge key : String) (htold : Told env w₀ [(query, v)] w₁) :
    Sourced env w₀ w₁ (rowsIf lib v gauge key) [optionalReading lib query gauge key] := by
  intro r hr
  obtain rfl := List.mem_singleton.1 hr
  refine ⟨v, htold, fun hpresent => ?_⟩
  have hkey : hasKey key.toList v = true := hpresent
  rw [rowsIf, if_pos hkey]
  exact List.mem_singleton_self _

theorem sourced_number {query : Call} {v : Data} {number : Data → Except Exc ℤ} {x : Except Exc F}
    (gauge : String) (htold : Told env w₀ [(query, v)] w₁)
    (hvalue : (number v >>= fun n => lib.float (.int n)) = x) :
    Sourced env w₀ w₁ [(gauge.toList, x)] [numberReading lib query gauge number] := by
  intro r hr
  obtain rfl := List.mem_singleton.1 hr
  rw [← hvalue]
  exact ⟨v, htold, fun _ => List.mem_singleton_self _⟩

theorem sourced_status (hc : CollectedFrom lib env w₀ c w₁) :
    Sourced env w₀ w₁ (statusRows lib c) (statusReadings lib) := by
  obtain ⟨uptime, huptime, hint⟩ := hc.uptime
  have hnumber : (lib.int uptime >>= fun n => lib.float (.int n)) = lib.float (.int c.uptime) := by
    rw [hint]
    rfl
  rw [statusRows, statusReadings]
  refine (sourced_number _ huptime hnumber).cons ?_
  exact ((((((sourced_fields _ hc.blockchaininfo rfl).append (sourced_fields _ hc.networkinfo rfl)).append
    (sourced_optional _ _ hc.networkinfo)).append (sourced_optional _ _ hc.networkinfo)).append
    (sourced_fields _ hc.blockchaininfo rfl)).append (sourced_fields _ hc.networkinfo rfl)).append
    (sourced_fields _ hc.blockchaininfo rfl)

theorem sourced_banned (hc : CollectedFrom lib env w₀ c w₁) :
    Sourced env w₀ w₁ (bannedRows lib c) (bannedReadings lib) :=
  sourced_number _ hc.banned rfl

theorem sourced_memory (hc : CollectedFrom lib env w₀ c w₁) :
    Sourced env w₀ w₁ (memoryRows lib c) (memoryReadings lib) := by
  obtain ⟨tips, htips, hlen⟩ := hc.chaintips
  obtain ⟨memory, hmemory, hlocked⟩ := hc.meminfo
  have hnumber : (len tips >>= fun n => lib.float (.int n)) = lib.float (.int c.chaintips) := by
    rw [hlen]
    rfl
  rw [memoryRows, memoryReadings]
  refine (sourced_fields _ hc.txstats rfl).append ((sourced_number _ htips hnumber).cons ?_)
  exact (((sourced_fields _ hmemory hlocked).append (sourced_fields _ hc.mempool rfl)).append
    (sourced_optional _ _ hc.mempool)).append (sourced_fields _ hc.nettotals rfl)

theorem sourced_active (hc : CollectedFrom lib env w₀ c w₁) :
    Sourced env w₀ w₁ (activeRows lib c) (activeReadings lib) := by
  refine sourced_number _ hc.rpcinfo ?_
  cases subscript "active_commands".toList c.rpcinfo with
  | error e => rfl
  | ok commands =>
    change ((· - 1) <$> len commands >>= fun n => lib.float (.int n)) =
      len commands >>= fun n => lib.float (.int (n - 1))
    cases len commands <;> rfl

/-- The rows of the latest block are set if there are any, and the gauges before them stay. -/
theorem runIf_block_agreed {block : Data} (hrs : ∀ r ∈ rs, r.gauge ∉ blockGauges) (h : Agreed env w₀ w₁ rs w) :
    wp env (runIf (isNone block = false) (publish (blockRows lib block)))
      (fun _ w' => Agreed env w₀ w₁ rs w' ∧ (isNone block = false → ∀ row ∈ blockRows lib block, Shown row w'.host))
      (fun _ _ => True) w := by
  rw [wp_runIf]
  split
  · have hnames : ((blockRows lib block).map Prod.fst).Nodup := by
      rw [names_blockRows]
      decide +kernel
    have hkeeps : Stays env (Preserves (Agreed env w₀ w₁ rs)) (publish (blockRows lib block)) :=
      publish_keeps (by rwa [names_blockRows])
    refine wp_mono (wp_and (hkeeps w) (publish_shown hnames w)) ?_ fun _ _ _ => trivial
    rintro _ w' ⟨hkeep, -, hshown, -⟩
    exact ⟨hkeep h, fun _ => hshown⟩
  · rename_i hnone
    exact ⟨h, fun hsome => absurd hsome hnone⟩

theorem publish_active_agreed {block : Data} (hc : CollectedFrom lib env w₀ c w₁)
    (hrs : ∀ r ∈ rs, r.gauge ∉ activeGauges) (h : Agreed env w₀ w₁ rs w)
    (hblock : isNone block = false → ∀ row ∈ blockRows lib block, Shown row w.host) :
    wp env (publish (activeRows lib c)) (fun _ w' => Agreed env w₀ w₁ (rs ++ activeReadings lib) w' ∧
      (isNone block = false → ∀ row ∈ blockRows lib block, Shown row w'.host)) (fun _ _ => True) w := by
  have hnames : ((activeRows lib c).map Prod.fst).Nodup := List.nodup_singleton _
  have hothers : ∀ name ∈ activeGauges, name ∉ blockGauges := by decide +kernel
  refine wp_mono (wp_and (publish_agreed h hnames (fun r hr hmem => hrs r hr ((names_activeRows c).mem hmem))
    (sourced_active hc)) (publish_shown hnames w)) ?_ fun _ _ _ => trivial
  rintro _ w' ⟨hagreed, -, -, hframe⟩
  refine ⟨hagreed, fun hsome row hrow => ?_⟩
  obtain ⟨x, hx, hget⟩ := hblock hsome row hrow
  refine ⟨x, hx, ?_⟩
  rw [hframe, hget]
  intro row' hrow' heq
  have hname : row'.1 = row.1 := congrArg Series.name heq
  refine hothers row'.1 ((names_activeRows c).mem (List.mem_map_of_mem hrow')) ?_
  have hrows : (blockRows lib block).map Prod.fst = blockGauges := names_blockRows block
  rw [hname, ← hrows]
  exact List.mem_map_of_mem hrow

theorem counted_agreed (hc : CollectedFrom lib env w₀ c w₁) (hnamed : Named w₁.host) {rest : Task F Unit}
    {Q : Unit → Process F → Prop}
    (hrest : ∀ w, Agreed env w₀ w₁ (countedReadings lib settings) w → wp env rest Q (fun _ _ => True) w) :
    wp env (do
      publish (statusRows lib c)
      forEach (doSmartfee lib) settings.smartFees
      forEach (doHashpsGauge lib) settings.hashpsBlocks
      publish (bannedRows lib c)
      rest) Q (fun _ _ => True) w₁ := by
  have hw : w₀.history <:+ w₁.history := hc.banned.1
  have hstart : Agreed env w₀ w₁ [] w₁ := ⟨hnamed, List.suffix_rfl, List.forall_mem_nil _⟩
  simp only [wp_bind]
  refine wp_mono (publish_agreed hstart ((names_statusRows c).nodup (by decide +kernel)) (List.forall_mem_nil _)
    (sourced_status hc)) (fun _ w₂ h₂ => ?_) fun _ _ _ => trivial
  refine wp_mono ((smartFee_loops hw).all settings.smartFees ?_ h₂) (fun _ w₃ h₃ => ?_) fun _ _ _ => trivial
  · exact fun r hr n heq => statusReadings_apart .smartFee n r hr (congrArg Series.name heq)
  refine wp_mono ((hashps_loops hw).all settings.hashpsBlocks ?_ h₃) (fun _ w₄ h₄ => ?_) fun _ _ _ => trivial
  · intro r hr n heq
    have hname : r.gauge = Family.hashps.gauge n := congrArg Series.name heq
    rcases List.mem_append.1 hr with hr | hr
    · exact statusReadings_apart .hashps n r hr hname
    · obtain ⟨m, -, rfl⟩ := List.mem_map.1 hr
      have hgauges : Family.smartFee.gauge m = Family.hashps.gauge n := hname
      exact absurd (gauge_injective hgauges).1 Family.noConfusion
  have hapart : ∀ r ∈ statusReadings lib ++ settings.smartFees.map (smartFeeReading lib) ++
      settings.hashpsBlocks.map (hashpsReading lib), r.gauge ∉ (bannedRows lib c).map Prod.fst :=
    within_numbered.apart_rows (names_bannedRows c) (by decide +kernel)
  exact wp_mono (publish_agreed h₄ ((names_bannedRows c).nodup (by decide)) hapart (sourced_banned hc))
    (fun _ w₅ h₅ => hrest w₅ h₅) fun _ _ _ => trivial

theorem setGauges_agreed (hc : CollectedFrom lib env w₀ c w₁) (hnamed : Named w₁.host) :
    wp env (setGauges lib settings c) (fun _ w => Agreed env w₀ w₁ (readings lib settings) w ∧
      (isNone c.latestBlockstats = false → ∀ row ∈ blockRows lib c.latestBlockstats, Shown row w.host))
      (fun _ _ => True) w₁ := by
  have hcounted : Within (statusGauges ++ bannedGauges) (countedReadings lib settings) :=
    within_numbered.append within_banned
  have hremembered := hcounted.append (@within_memory F lib)
  rw [setGauges]
  refine counted_agreed hc hnamed fun w₂ h₂ => ?_
  simp only [wp_bind]
  have hbans : Stays env (Preserves (Agreed env w₀ w₁ (countedReadings lib settings)))
      (runIf settings.banAddressMetrics (forEach (setBans lib) (items c.banned))) := by
    have hapart : ∀ r ∈ countedReadings lib settings, r.gauge ∉ banGauges := hcounted.apart (by decide +kernel)
    refine .runIf fun _ => forEach_stays fun ban _ => agreed_respects.setBans (fun series hname r hr heq => ?_) ban
    refine hapart r hr ?_
    rw [show r.gauge = series.name from congrArg Series.name heq]
    exact hname
  have hwarnings : Stays env (Preserves (Agreed env w₀ w₁ (countedReadings lib settings))) (checkWarnings lib c) :=
    agreed_respects.checkWarnings c
  refine wp_mono (hbans w₂) (fun _ w₃ hkeep => ?_) fun _ _ _ => trivial
  refine wp_mono (hwarnings w₃) (fun _ w₄ hkeep' => ?_) fun _ _ _ => trivial
  have h₄ : Agreed env w₀ w₁ (countedReadings lib settings) w₄ := hkeep' (hkeep h₂)
  refine wp_mono (publish_agreed h₄ ((names_memoryRows c).nodup (by decide +kernel))
    (hcounted.apart_rows (names_memoryRows c) (by decide +kernel)) (sourced_memory hc))
    (fun _ w₅ h₅ => ?_) fun _ _ _ => trivial
  refine wp_mono (runIf_block_agreed (hremembered.apart (by decide +kernel)) h₅)
    (fun _ w₆ h₆ => ?_) fun _ _ _ => trivial
  exact publish_active_agreed hc (hremembered.apart (by decide +kernel)) h₆.1 h₆.2

end

end

/-- The gauges agree with what the node has said since `w₀`: those for the latest block with what
is remembered of the block that the node then called its best. -/
structure Current (lib : Library F) (settings : Settings) (env : Environment Call Answer) (w₀ w : Process F) :
    Prop where
  agree : ∀ r ∈ readings lib settings, Answered env (r.Agrees w.host) w₀ w r.call
  latest : ∃ info blockHash block, Answered env (fun answer => answer.result = .ok info) w₀ w (call "getblockchaininfo") ∧
    subscript "bestblockhash".toList info = .ok blockHash ∧
    w.host.blockstats = some (text lib.printable blockHash, block) ∧
    (isNone block = false → ∀ row ∈ blockRows lib block, Shown row w.host)

/-- What is remembered of a block is settled before any gauge is set. -/
theorem setGauges_blockstats (entry : Option (Str × Data)) (c : Collected) :
    Stays env (Preserves fun w : Process F => w.host.blockstats = entry) (setGauges lib settings c) := by
  have haloof : Aloof fun w : Process F => w.host.blockstats = entry := fun _ _ hblock _ h => hblock.trans h
  have hrespects : Respects lib env (fun w : Process F => w.host.blockstats = entry) fun _ => True :=
    haloof.respects fun _ _ _ _ h => h
  exact hrespects.setGauges (fun _ _ => trivial) (fun _ _ => trivial) fun _ => hrespects.publish fun _ _ => trivial

theorem refreshMetrics_current {w : Process F} (hnamed : Named w.host) :
    wp env (refreshMetrics lib settings) (fun _ => Current lib settings env w) (fun _ _ => True) w := by
  have hcollect : Stays env (Preserves fun w : Process F => Named w.host) (collect lib) :=
    named_respects.collect fun _ => getblockstats_named
  rw [refreshMetrics, wp_bind]
  refine wp_mono (wp_and (hcollect w) (collect_from w)) ?_ fun _ _ _ => trivial
  rintro c w₁ ⟨hkeep, hc⟩
  obtain ⟨blockHash, hhash, hremembered⟩ := hc.latest
  have hstays : Stays env (Preserves fun w : Process F =>
      w.host.blockstats = some (text lib.printable blockHash, c.latestBlockstats)) (setGauges lib settings c) :=
    setGauges_blockstats _ c
  refine wp_mono (wp_and (setGauges_agreed hc (hkeep hnamed)) (hstays w₁)) ?_ fun _ _ _ => trivial
  rintro _ w₂ ⟨⟨hagreed, hblock⟩, hsame⟩
  have htold := hc.blockchaininfo.mono hagreed.grown
  exact ⟨hagreed.agree, c.blockchaininfo, blockHash, c.latestBlockstats,
    htold.2 _ (List.mem_singleton_self _), hhash, hsame hremembered, hblock⟩

theorem Current.of_eq {w₀ w w' : Process F} (h : Current lib settings env w₀ w) (hhistory : w'.history = w.history)
    (hgauges : w'.host.gauges = w.host.gauges) (hblock : w'.host.blockstats = w.host.blockstats) :
    Current lib settings env w₀ w' := by
  have hgrow : w.history <:+ w'.history := by rw [hhistory]
  obtain ⟨hagree, info, blockHash, block, hinfo, hhash, hremembered, hshown⟩ := h
  refine ⟨fun r hr => ?_, info, blockHash, block, ?_, hhash, hblock.trans hremembered, ?_⟩
  · exact answered_mono (hagree r hr) (fun _ ha => ha.mono (by rw [hgauges])) hgrow
  · exact answered_mono hinfo (fun _ => id) hgrow
  · simpa only [Shown, hgauges] using hshown

theorem excuse_served (e : Exc) (w : Process F) :
    wp env (excuse e) (fun served _ => served ≠ .fresh) (fun _ _ => True) w := by
  cases e with
  | retryError name | jsonRpcError name => exact fun h => Served.noConfusion h
  | jsonDecodeError | other name | systemExit code => exact trivial

theorem refreshApp_current (start finish : ℤ) {w : Process F} (hnamed : Named w.host) :
    wp env (refreshApp lib settings start finish)
      (fun served w' => served = .fresh → Current lib settings env w w') (fun _ _ => True) w := by
  by_cases hearly : start - w.host.lastRefresh < settings.rateLimitSeconds * 10 ^ 6
  · simp only [refreshApp, wp_bind, wp_readHost, if_pos hearly]
    exact fun h => Served.noConfusion h
  · simp only [refreshApp, wp_bind, wp_readHost, if_neg hearly, wp_tryCatch]
    have hsettle : ∀ (served : Served) (w' : Process F), (served = .fresh → Current lib settings env w w') →
        wp env (if finish - start < 0 then throw valueError
          else do modifyHost (refreshed start (finish - start)); pure served : Task F Served)
          (fun served w' => served = .fresh → Current lib settings env w w') (fun _ _ => True) w' := by
      intro served w' hcurrent
      rw [wp_ite]
      split
      · exact trivial
      · exact fun hfresh => (hcurrent hfresh).of_eq rfl rfl rfl
    refine wp_mono (refreshMetrics_current hnamed) (fun _ w' hcurrent => ?_) fun e w' _ => ?_
    · exact hsettle .fresh w' fun _ => hcurrent
    · exact wp_mono (excuse_served e w') (fun served w'' hserved => hsettle served w'' fun h => absurd h hserved)
        fun _ _ _ => trivial

/-- After every run, a scrape that is answered from a refresh leaves gauges that agree with what
the node has said since the scrape came. -/
theorem run_current (scrapes : List Scrape) (scrape : Scrape) :
    wp env (refreshApp lib settings scrape.start scrape.finish)
      (fun served w => served = .fresh →
        Current lib settings env (run lib settings env (initial lib settings) scrapes) w)
      (fun _ _ => True) (run lib settings env (initial lib settings) scrapes) :=
  refreshApp_current scrape.start scrape.finish (run_named scrapes)

theorem refreshApp_of_visit {w : Process F} {scrape : Scrape}
    (hfresh : (visit lib settings env w scrape).1.result = .ok .fresh) :
    refreshApp lib settings scrape.start scrape.finish env w = .ok .fresh (visit lib settings env w scrape).2 := by
  rw [visit] at hfresh ⊢
  cases hserved : refreshApp lib settings scrape.start scrape.finish env w with
  | ok served w' =>
    rw [hserved] at hfresh
    exact congrArg (EStateM.Result.ok · w') (Except.ok.inj hfresh)
  | error e w' =>
    rw [hserved] at hfresh
    cases hfresh

def numberFields : List Str :=
  ["bestblockhash", "blocks", "difficulty", "size_on_disk", "verificationprogress", "connections", "connections_in",
    "connections_out", "version", "protocolversion", "warnings", "txcount", "used", "free", "total", "locked",
    "chunks_used", "chunks_free", "bytes", "size", "usage", "mempoolminfee", "unbroadcastcount", "totalbytesrecv",
    "totalbytessent", "total_size", "txs", "height", "total_weight", "ins", "outs", "total_out", "totalfee",
    "feerate"].map String.toList

def numbers (n : ℤ) : Data := .dict (numberFields.map fun name => (.str name, .int n))

/-- A node that answers every call, and says the number of the call wherever it says a number. -/
def countingNode : Environment Call Answer := fun history asked =>
  let n : ℤ := history.length
  ⟨[], .ok <|
    if asked.method = "uptime".toList ∨ asked.method = "getnetworkhashps".toList then .int n
    else if asked.method = "getchaintips".toList ∨ asked.method = "listbanned".toList then .list [.none]
    else if asked.method = "getmemoryinfo".toList then .dict [(.str "locked".toList, numbers n)]
    else if asked.method = "getrpcinfo".toList then .dict [(.str "active_commands".toList, .list [.none])]
    else numbers n⟩

/-- The process after its first refresh. -/
def counted : Process ℚ :=
  run exactLibrary defaultSettings countingNode (initial exactLibrary defaultSettings) [⟨10000000, 10900000⟩]

/-- The second refresh shows the blocks of its own call, which is the twenty-first of all. -/
theorem run_current_counted : ∃ w, refreshApp exactLibrary defaultSettings 15000000 15100000 countingNode counted =
      .ok .fresh w ∧ Current exactLibrary defaultSettings countingNode counted w ∧
    w.host.gauges.get ⟨"bitcoin_blocks".toList, []⟩ = some 20 := by
  have hvisit : (visit exactLibrary defaultSettings countingNode counted ⟨15000000, 15100000⟩).1.result = .ok .fresh ∧
      (visit exactLibrary defaultSettings countingNode counted ⟨15000000, 15100000⟩).2.host.gauges.get
        ⟨"bitcoin_blocks".toList, []⟩ = some 20 := by
    decide +kernel
  have hserved := refreshApp_of_visit hvisit.1
  exact ⟨_, hserved, wp_of_ok (run_current [⟨10000000, 10900000⟩] ⟨15000000, 15100000⟩) hserved rfl, hvisit.2⟩

end BitcoinRpcOperator.MonitorReadings
