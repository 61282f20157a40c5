import BitcoinRpcOperator.Dictionaries
import BitcoinRpcOperator.FallibleProcedures
import BitcoinRpcOperator.MetadataCollection

/-!
# The exporter of `bitcoind-monitor.py`

Prometheus scrapes the exporter. A scrape soon after a refresh is answered from the gauges as they
stand; any other asks the node for everything first and then sets the gauges. The node and the
clock are an environment. A gauge holds floats of a type `F`, and the conversions to them are a
parameter.
-/

namespace BitcoinRpcOperator.MonitorRefresh
open Text PythonValues Dictionaries FallibleProcedures
open MetadataCollection (Entries)

/-- What the handlers tell apart. A name is that of the module and of the class. -/
inductive Exc where
  | retryError (name : Str)
  | jsonRpcError (name : Str)
  | jsonDecodeError
  | other (name : Str)
  /-- The one that is no `Exception`: `sys.exit`, also by the signal handler. -/
  | systemExit (code : ℕ)
  deriving DecidableEq, Repr

def attributeError : Exc := .other "builtins.AttributeError".toList
def keyError : Exc := .other "builtins.KeyError".toList
def typeError : Exc := .other "builtins.TypeError".toList
def valueError : Exc := .other "builtins.ValueError".toList

/-- `int` and `float` of a value, what `bool` is for a `Decimal`, and the names that the metrics
library takes. A `Decimal` stands as a float that is known by its `str`. -/
structure Library (F : Type) where
  zero : F
  int : Data → Except Exc ℤ
  float : Data → Except Exc F
  /-- `float(value / SATS_PER_COIN)`. -/
  coins : Data → Except Exc F
  nonzero : Str → Bool
  printable : Char → Bool
  validName : Str → Bool

def lookup (key : Str) : Entries → Option Data
  | [] => none
  | (.str k, v) :: es => if k = key then some v else lookup key es
  | _ :: es => lookup key es

/-- `value[key]`. -/
def subscript (key : Str) : Data → Except Exc Data
  | .dict es => (lookup key es).elim (.error keyError) .ok
  | _ => .error typeError

/-- `value.get(key, default)`. -/
def getOr (key : Str) (default : Data) : Data → Except Exc Data
  | .dict es => .ok ((lookup key es).getD default)
  | _ => .error attributeError

/-- `key in value`, of a value that has been subscripted with a text before. -/
def hasKey (key : Str) : Data → Bool
  | .dict es => (lookup key es).isSome
  | _ => false

def len : Data → Except Exc ℤ
  | .str s => .ok s.length
  | .bytes bs => .ok bs.length
  | .list xs | .tuple xs | .set xs => .ok xs.length
  | .dict es => .ok es.length
  | _ => .error typeError

/-- What `for` goes through, of a value that has a length. -/
def items : Data → List Data
  | .str s => s.map fun c => .str [c]
  | .bytes bs => bs.map fun b => .int b.toNat
  | .list xs | .tuple xs | .set xs => xs
  | .dict es => es.map (·.1)
  | _ => []

def isNone : Data → Bool
  | .none => true
  | _ => false

section
variable {F : Type} (lib : Library F)

def truthy : Data → Bool
  | .float t => lib.nonzero t
  | v => MetadataCollection.truthy v

/-- `float(value[key])`. -/
def field (info : Data) (key : Str) : Except Exc F := subscript key info >>= lib.float

end

/-- A gauge with the values of its labels. -/
structure Series where
  name : Str
  labels : List (Str × Str)
  deriving DecidableEq, Repr

/-- The gauges that are made for a number of blocks: `BITCOIN_HASHPS_GAUGES` and
`BITCOIN_ESTIMATED_SMART_FEE_GAUGES`. -/
inductive Family where
  | hashps | smartFee
  deriving DecidableEq, Repr

structure Exporter (F : Type) where
  gauges : Dictionary Series F
  /-- The names that the registry has. -/
  registered : List Str
  made : Family → Dictionary ℤ Str
  errors : Counter Str
  warnings : ℕ
  /-- In microseconds, as the clock. -/
  processTime : ℤ
  /-- The `lru_cache` of `getblockstats`. -/
  blockstats : Option (Str × Data)
  lastRefresh : ℤ

/-- The module's variables. -/
structure Settings where
  smartFees : List ℤ
  hashpsBlocks : List ℤ
  banAddressMetrics : Bool
  rateLimitSeconds : ℤ

structure Call where
  method : Str
  params : List Data

/-- What comes of a call, after the retries. -/
structure Answer where
  /-- The exceptions that `on_retry` has counted. -/
  retried : List Str
  result : Except Exc Data

abbrev Task (F α : Type) := Proc Call Answer Exc (Exporter F) α

section
variable {F : Type}

def orRaise {α : Type} : Except Exc α → Task F α
  | .ok a => pure a
  | .error e => throw e

def countErrors (names : List Str) (s : Exporter F) : Exporter F :=
  { s with errors := s.errors.incAll names }

def bitcoinrpc (method : Str) (params : List Data) : Task F Data := do
  let answer ← ask ⟨method, params⟩
  modifyHost (countErrors answer.retried)
  orRaise answer.result

/-- What `getblockstats` asks for. -/
def blockFields : List Str :=
  ["total_size", "total_weight", "totalfee", "txs", "height", "ins", "outs", "total_out"].map
    String.toList

/-- The body of `getblockstats`: any `Exception` is logged, and makes a `None`. -/
def retrieveBlock (blockHash : Str) : Task F Data :=
  tryCatch (bitcoinrpc "getblockstats".toList [.str blockHash, .list (blockFields.map .str)]) fun
    | .systemExit code => throw (.systemExit code)
    | _ => pure .none

def Exporter.recall (s : Exporter F) (blockHash : Str) : Option Data :=
  s.blockstats.bind fun entry => if entry.1 = blockHash then some entry.2 else none

def remember (blockHash : Str) (block : Data) (s : Exporter F) : Exporter F :=
  { s with blockstats := some (blockHash, block) }

def getblockstats (blockHash : Str) : Task F Data := do
  let s ← readHost
  match s.recall blockHash with
  | some block => pure block
  | none =>
    let block ← retrieveBlock blockHash
    modifyHost (remember blockHash block)
    pure block

/-- `set` of a gauge, and `labels`, which makes a gauge that is not there. -/
def adjust (series : Series) (f : Option F → F) (s : Exporter F) : Exporter F :=
  { s with gauges := s.gauges.update series f }

def assign (series : Series) (x : F) : Task F Unit := modifyHost (adjust series fun _ => x)

/-- A gauge without labels, and the value that it is set to. -/
abbrev Row (F : Type) := Str × Except Exc F

def Row.series (row : Row F) : Series := ⟨row.1, []⟩

/-- One `set` after the other. -/
def publish : List (Row F) → Task F Unit
  | [] => pure ()
  | row :: rows => do
    assign row.series (← orRaise row.2)
    publish rows

def forEach {α : Type} (f : α → Task F Unit) : List α → Task F Unit
  | [] => pure ()
  | x :: xs => do
    f x
    forEach f xs

end

def hashpsGaugeSuffix (nblocks : ℤ) : Str :=
  if nblocks < 0 then "_neg".toList ++ intText (-nblocks)
  else if nblocks = 120 then []
  else '_' :: intText nblocks

def Family.gauge : Family → ℤ → Str
  | .hashps, n => "bitcoin_hashps".toList ++ hashpsGaugeSuffix n
  | .smartFee, n => "bitcoin_est_smart_fee_".toList ++ intText n

section
variable {F : Type} (lib : Library F)

def enrol (name : Str) (s : Exporter F) : Exporter F :=
  { adjust ⟨name, []⟩ (fun _ => lib.zero) s with registered := name :: s.registered }

/-- The registry takes a name once. -/
def register (name : Str) : Task F Unit := do
  let s ← readHost
  if lib.validName name = false ∨ name ∈ s.registered then throw valueError
  else modifyHost (enrol lib name)

def recordMade (family : Family) (n : ℤ) (name : Str) (s : Exporter F) : Exporter F :=
  { s with made := Function.update s.made family ((s.made family).update n fun _ => name) }

/-- `smartfee_gauge` and `hashps_gauge`: a gauge is made when it is first asked for. -/
def Family.gaugeFor (family : Family) (n : ℤ) : Task F Str := do
  let s ← readHost
  match (s.made family).get n with
  | some gauge => pure gauge
  | none =>
    register lib (family.gauge n)
    modifyHost (recordMade family n (family.gauge n))
    pure (family.gauge n)

def smartfeeGauge (numBlocks : ℤ) : Task F Str := Family.smartFee.gaugeFor lib numBlocks

def hashpsGauge (numBlocks : ℤ) : Task F Str := Family.hashps.gaugeFor lib numBlocks

/-- `gauge.set(value)`, once the gauge is there. -/
def setTo (gauge : Task F Str) (value : Except Exc F) : Task F Unit := do
  let name ← gauge
  assign ⟨name, []⟩ (← orRaise value)

def doSmartfee (numBlocks : ℤ) : Task F Unit := do
  let smartfee ← orRaise (getOr "feerate".toList .none
    (← bitcoinrpc "estimatesmartfee".toList [.int numBlocks]))
  runIf (isNone smartfee = false) (setTo (smartfeeGauge lib numBlocks) (lib.float smartfee))

def doHashpsGauge (numBlocks : ℤ) : Task F Unit := do
  let hps ← orRaise (lib.float (← bitcoinrpc "getnetworkhashps".toList [.int numBlocks]))
  setTo (hashpsGauge lib numBlocks) (.ok hps)

/-- What the node is asked for before any gauge is set. -/
structure Collected where
  uptime : ℤ
  meminfo : Data
  blockchaininfo : Data
  networkinfo : Data
  chaintips : ℤ
  mempool : Data
  nettotals : Data
  rpcinfo : Data
  txstats : Data
  latestBlockstats : Data
  banned : Data

def collect : Task F Collected := do
  let uptime ← orRaise (lib.int (← bitcoinrpc "uptime".toList []))
  let meminfo ← orRaise (subscript "locked".toList
    (← bitcoinrpc "getmemoryinfo".toList [.str "stats".toList]))
  let blockchaininfo ← bitcoinrpc "getblockchaininfo".toList []
  let networkinfo ← bitcoinrpc "getnetworkinfo".toList []
  let chaintips ← orRaise (len (← bitcoinrpc "getchaintips".toList []))
  let mempool ← bitcoinrpc "getmempoolinfo".toList []
  let nettotals ← bitcoinrpc "getnettotals".toList []
  let rpcinfo ← bitcoinrpc "getrpcinfo".toList []
  let txstats ← bitcoinrpc "getchaintxstats".toList []
  let blockHash ← orRaise (subscript "bestblockhash".toList blockchaininfo)
  let latestBlockstats ← getblockstats (text lib.printable blockHash)
  let banned ← bitcoinrpc "listbanned".toList []
  pure ⟨uptime, meminfo, blockchaininfo, networkinfo, chaintips, mempool, nettotals, rpcinfo, txstats,
    latestBlockstats, banned⟩

def rowsOf (info : Data) (fields : List (String × String)) : List (Row F) :=
  fields.map fun e => (e.1.toList, field lib info e.2.toList)

/-- A row for a field that older nodes do not report. -/
def rowsIf (info : Data) (gauge key : String) : List (Row F) :=
  if hasKey key.toList info then rowsOf lib info [(gauge, key)] else []

/-- The rows before the gauges that are made for numbers of blocks. -/
def statusRows (c : Collected) : List (Row F) :=
  ("bitcoin_uptime".toList, lib.float (.int c.uptime)) ::
    (rowsOf lib c.blockchaininfo [("bitcoin_blocks", "blocks")] ++
    rowsOf lib c.networkinfo [("bitcoin_peers", "connections")] ++
    rowsIf lib c.networkinfo "bitcoin_conn_in" "connections_in" ++
    rowsIf lib c.networkinfo "bitcoin_conn_out" "connections_out" ++
    rowsOf lib c.blockchaininfo [("bitcoin_difficulty", "difficulty")] ++
    rowsOf lib c.networkinfo [("bitcoin_server_version", "version"), ("bitcoin_protocol_version", "protocolversion")] ++
    rowsOf lib c.blockchaininfo
      [("bitcoin_size_on_disk", "size_on_disk"), ("bitcoin_verification_progress", "verificationprogress")])

def bannedRows (c : Collected) : List (Row F) :=
  [("bitcoin_banned_peers".toList, len c.banned >>= fun n => lib.float (.int n))]

def memoryRows (c : Collected) : List (Row F) :=
  rowsOf lib c.txstats [("bitcoin_txcount", "txcount")] ++
    ("bitcoin_num_chaintips".toList, lib.float (.int c.chaintips)) ::
    (rowsOf lib c.meminfo [("bitcoin_meminfo_used", "used"), ("bitcoin_meminfo_free", "free"),
      ("bitcoin_meminfo_total", "total"), ("bitcoin_meminfo_locked", "locked"),
      ("bitcoin_meminfo_chunks_used", "chunks_used"), ("bitcoin_meminfo_chunks_free", "chunks_free")] ++
    rowsOf lib c.mempool [("bitcoin_mempool_bytes", "bytes"), ("bitcoin_mempool_size", "size"),
      ("bitcoin_mempool_usage", "usage"), ("bitcoin_mempool_minfee", "mempoolminfee")] ++
    rowsIf lib c.mempool "bitcoin_mempool_unbroadcast" "unbroadcastcount" ++
    rowsOf lib c.nettotals [("bitcoin_total_bytes_recv", "totalbytesrecv"),
      ("bitcoin_total_bytes_sent", "totalbytessent")])

def blockRows (block : Data) : List (Row F) :=
  rowsOf lib block [("bitcoin_latest_block_size", "total_size"), ("bitcoin_latest_block_txs", "txs"),
      ("bitcoin_latest_block_height", "height"), ("bitcoin_latest_block_weight", "total_weight"),
      ("bitcoin_latest_block_inputs", "ins"), ("bitcoin_latest_block_outputs", "outs")] ++
    [("bitcoin_latest_block_value".toList, subscript "total_out".toList block >>= lib.coins),
      ("bitcoin_latest_block_fee".toList, subscript "totalfee".toList block >>= lib.coins)]

/-- The call for the commands does not count itself. -/
def activeRows (c : Collected) : List (Row F) :=
  [("bitcoin_rpc_active".toList, do
    let commands ← subscript "active_commands".toList c.rpcinfo
    lib.float (.int ((← len commands) - 1)))]

def banSeries (name : String) (ban : Data) : Except Exc Series := do
  let address ← subscript "address".toList ban
  let reason ← getOr "ban_reason".toList (.str "manually added".toList) ban
  pure ⟨name.toList, [("address".toList, text lib.printable address), ("reason".toList, text lib.printable reason)]⟩

def setBan (name key : String) (ban : Data) : Task F Unit := do
  let series ← orRaise (banSeries lib name ban)
  modifyHost (adjust series fun x => x.getD lib.zero)
  assign series (← orRaise (field lib ban key.toList))

def setBans (ban : Data) : Task F Unit := do
  setBan lib "bitcoin_ban_created" "ban_created" ban
  setBan lib "bitcoin_banned_until" "banned_until" ban

def warn (s : Exporter F) : Exporter F := { s with warnings := s.warnings + 1 }

def checkWarnings (c : Collected) : Task F Unit := do
  let warnings ← orRaise (subscript "warnings".toList c.networkinfo)
  runIf (truthy lib warnings) (modifyHost warn)

variable (settings : Settings)

/-- What `refresh_metrics` does after these calls. -/
def setGauges (c : Collected) : Task F Unit := do
  publish (statusRows lib c)
  forEach (doSmartfee lib) settings.smartFees
  forEach (doHashpsGauge lib) settings.hashpsBlocks
  publish (bannedRows lib c)
  runIf settings.banAddressMetrics (forEach (setBans lib) (items c.banned))
  checkWarnings lib c
  publish (memoryRows lib c)
  runIf (isNone c.latestBlockstats = false) (publish (blockRows lib c.latestBlockstats))
  publish (activeRows lib c)

def refreshMetrics : Task F Unit := do
  let c ← collect lib
  setGauges lib settings c

/-- How a scrape is answered: at once, after a refresh, or after one that was given up and counted. -/
inductive Served where
  | early | fresh | excused (name : Str)
  deriving DecidableEq, Repr

/-- The `except` clauses of `refresh_app`. -/
def excuse : Exc → Task F Served
  | .retryError name | .jsonRpcError name => do
    modifyHost (countErrors [name])
    pure (.excused name)
  | .jsonDecodeError => throw (.systemExit 1)
  | e => throw e

def refreshed (start duration : ℤ) (s : Exporter F) : Exporter F :=
  { s with processTime := s.processTime + duration, lastRefresh := start }

/-- `refresh_app`, with what `datetime.now()` says before and after the refresh. A counter takes
no negative amount. -/
def refreshApp (start finish : ℤ) : Task F Served := do
  let s ← readHost
  if start - s.lastRefresh < settings.rateLimitSeconds * 10 ^ 6 then pure .early
  else do
    let served ← tryCatch (do refreshMetrics lib settings; pure .fresh) excuse
    if finish - start < 0 then throw valueError
    else do
      modifyHost (refreshed start (finish - start))
      pure served

/-- What the clock says when a scrape comes and when its refresh is over. -/
structure Scrape where
  start : ℤ
  finish : ℤ

/-- What came of a scrape: an exception makes the server answer with an error, and it goes on. -/
structure Visit where
  start : ℤ
  result : Except Exc Served
  /-- How often the node was asked. -/
  calls : ℕ

/-- A refresh was completed, be it one that was given up. -/
def Visit.isRefresh (v : Visit) : Bool :=
  match v.result with
  | .ok .fresh | .ok (.excused _) => true
  | .ok .early | .error _ => false

/-- The process, and what it has asked the node. -/
abbrev Process (F : Type) := World Call (Exporter F)

variable (env : Environment Call Answer)

def visit (w : Process F) (scrape : Scrape) : Visit × Process F :=
  match refreshApp lib settings scrape.start scrape.finish env w with
  | .ok served w' => (⟨scrape.start, .ok served, w'.history.length - w.history.length⟩, w')
  | .error e w' => (⟨scrape.start, .error e, w'.history.length - w.history.length⟩, w')

def visits (w : Process F) : List Scrape → List Visit
  | [] => []
  | scrape :: scrapes => (visit lib settings env w scrape).1 :: visits (visit lib settings env w scrape).2 scrapes

def run (w : Process F) (scrapes : List Scrape) : Process F :=
  scrapes.foldl (fun w scrape => (visit lib settings env w scrape).2) w

/-- The gauges without labels that the module makes, in its order. -/
def standingGauges : List Str :=
  ["bitcoin_blocks", "bitcoin_difficulty", "bitcoin_peers", "bitcoin_conn_in", "bitcoin_conn_out",
    "bitcoin_uptime", "bitcoin_meminfo_used", "bitcoin_meminfo_free", "bitcoin_meminfo_total",
    "bitcoin_meminfo_locked", "bitcoin_meminfo_chunks_used", "bitcoin_meminfo_chunks_free",
    "bitcoin_mempool_bytes", "bitcoin_mempool_size", "bitcoin_mempool_usage", "bitcoin_mempool_minfee",
    "bitcoin_mempool_unbroadcast", "bitcoin_latest_block_height", "bitcoin_latest_block_weight",
    "bitcoin_latest_block_size", "bitcoin_latest_block_txs", "bitcoin_txcount", "bitcoin_num_chaintips",
    "bitcoin_total_bytes_recv", "bitcoin_total_bytes_sent", "bitcoin_latest_block_inputs",
    "bitcoin_latest_block_outputs", "bitcoin_latest_block_value", "bitcoin_latest_block_fee",
    "bitcoin_banned_peers", "bitcoin_server_version", "bitcoin_protocol_version", "bitcoin_size_on_disk",
    "bitcoin_verification_progress", "bitcoin_rpc_active"].map String.toList

def banGauges : List Str := ["bitcoin_ban_created", "bitcoin_banned_until"].map String.toList

/-- A counter takes three names. -/
def counterNames : List Str :=
  ["bitcoin_warnings", "bitcoin_exporter_errors", "bitcoin_exporter_process_time"].flatMap fun name =>
    [name.toList, name.toList ++ "_total".toList, name.toList ++ "_created".toList]

def initial : Process F where
  history := []
  host :=
    { gauges := standingGauges.foldl (fun d name => d.update ⟨name, []⟩ fun _ => lib.zero) Dictionary.empty
      registered := standingGauges ++ (if settings.banAddressMetrics then banGauges else []) ++ counterNames
      made := fun _ => Dictionary.empty
      errors := Dictionary.empty
      warnings := 0
      processTime := 0
      blockstats := none
      lastRefresh := 0 }

end

end BitcoinRpcOperator.MonitorRefresh
