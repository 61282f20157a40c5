import BitcoinRpcOperator.FallbackFlags
import BitcoinRpcOperator.FloatText
import BitcoinRpcOperator.ReleaseInstaller

/-!
# Metadata of the running node

`build_runtime_metadata` and `collect_upload_metadata` of `bitcoin_metadata.py` with what
they call in `utils.py`: four RPC calls, the command line and the version of the node, the
limits of its unit, and the redaction of all that and of the Juju model before the upload.
-/

namespace BitcoinRpcOperator.MetadataCollection
open Text Backtracking Dictionaries PythonValues ServiceConfiguration EffectiveFlags FallbackFlags
open Redaction (redactRuntimeValue redactAt redactEntries redactOutput)
open BinaryFloats FloatText

/-- What can be raised below the handlers, with `str(exc)` where a handler reads it. -/
inductive Exc where
  | osError (message : Str)
  | requestException (message : Str)
  | runtimeError (message : Str)
  | valueError (message : Str)
  | validation (message : Str)
  | upload (message : Str)
  | attributeError
  | typeError
  | memoryError
  | calledProcessError
  deriving DecidableEq, Repr

/-- What running a program raises, its exit status apart. -/
inductive Trouble where
  | osError (message : Str)
  /-- Output that is no UTF-8: a `ValueError`. -/
  | undecodable (message : Str)
  deriving DecidableEq, Repr

namespace Trouble

def message : Trouble → Str
  | .osError m | .undecodable m => m

def exc : Trouble → Exc
  | .osError m => .osError m
  | .undecodable m => .valueError m

end Trouble

def ran {α : Type} : Except Trouble α → Except Exc α := Except.mapError Trouble.exc

/-- A `RecursionError` is a `RuntimeError`. -/
def pythonExc : PythonError → Exc
  | .typeError => .typeError
  | .valueError m => .valueError m
  | .recursionError m => .runtimeError m
  | .memoryError => .memoryError

def redacting {α : Type} : Except PythonError α → Except Exc α := Except.mapError pythonExc

/-- What is taken from the standard library. -/
structure Library where
  redaction : Redaction.Library
  /-- What `casefold` makes of the characters beyond ASCII. -/
  beyond : Char → Str
  /-- The checks of `urlsplit`. -/
  urls : ReleaseInstaller.Library

variable (lib : Library)

/-- `redact_runtime_value`. -/
def redact (value : Str) : Except Exc Str := redacting (redactRuntimeValue lib.redaction value)

/-- `str` of a value whose integers can be written. -/
def str (v : Data) : Str := text lib.redaction.printable v

def truthy : Data → Bool
  | .none => false
  | .ellipsis => true
  | .bool b => b
  | .int n => n != 0
  | .float t => t != "0.0".toList && t != "-0.0".toList
  | .complex t => !(["0j", "-0j", "(-0+0j)", "(-0-0j)"].map String.toList).contains t
  | .str s => !s.isEmpty
  | .bytes bs => !bs.isEmpty
  | .list xs | .tuple xs | .set xs => !xs.isEmpty
  | .dict es => !es.isEmpty

abbrev Entries := List (Data × Data)

/-- `entries.get(name)`. -/
def entry (name : Str) : Entries → Data
  | [] => .none
  | (.str k, v) :: es => if k = name then v else entry name es
  | _ :: es => entry name es

/-- `value or ""`. -/
def orEmpty (v : Data) : Data := if truthy v then v else .str []

def record (fields : List (Str × Data)) : Data := .dict (fields.map fun f => (.str f.1, f.2))

/-- `int(value)` of a text. -/
def pyInt (value : Str) : Except Exc ℤ :=
  let body := strip value
  let unsigned := match body with
    | '-' :: rest | '+' :: rest => rest
    | _ => body
  let groups := unsigned.splitOn '_'
  let digits := groups.flatten
  if groups.any (·.isEmpty) || digits.any fun c => !ReleaseInstaller.isDigit c then
    .error (.valueError ("invalid literal for int() with base 10: ".toList ++
      reprStr lib.redaction.printable value))
  else if ReleaseInstaller.intMaxStrDigits < digits.length then
    .error (.valueError ("Exceeds the limit (4300 digits) for integer string conversion: ".toList ++
      "value has ".toList ++ intText digits.length ++
      " digits; use sys.set_int_max_str_digits() to increase the limit".toList))
  else .ok (if body.head? = some '-' then -(decimal digits : ℤ) else decimal digits)

structure Relation where
  id : ℕ
  /-- The databags by endpoint. -/
  data : List (Str × List (Str × Str))

/-- The Juju model, in which an option is a text, a number of 64 bits or a boolean. -/
structure Model where
  name : Str
  uuid : Str
  config : List (Str × Data)
  relations : List (Str × List Relation)
  fits : ∀ e ∈ config, intsFit e.2

structure RpcRequest where
  user : Str
  password : Str
  method : Str
  params : List Data

/-- The response to a request: an exception of `requests`, or a JSON body. -/
inductive Reply where
  | failed (message : Str)
  | body (v : Data)

/-- A body has been parsed, so its integers can be written. -/
def Reply.Fits : Reply → Prop
  | .failed _ => True
  | .body v => intsFit v

/-- How `bitcoind --version` ends. -/
inductive VersionOutput where
  /-- No such file, no permission, or an exit status. -/
  | unavailable
  | trouble (t : Trouble)
  | output (stdout : Str)

/-- What the uploader library raises. -/
inductive UploaderError where
  | validation (message : Str)
  | upload (message : Str)

namespace UploaderError

def message : UploaderError → Str
  | .validation m | .upload m => m

def exc : UploaderError → Exc
  | .validation m => .validation m
  | .upload m => .upload m

end UploaderError

def uploading {α : Type} : Except UploaderError α → Except Exc α :=
  Except.mapError UploaderError.exc

structure RedactedRelation where
  id : ℕ
  data : List (Str × Data)

structure ModelView where
  name : Str
  uuid : Str
  config : List (Str × Data)
  relations : List (Str × List RedactedRelation)

/-- What `collect_and_upload` is given of the node. -/
structure Upload where
  model : ModelView
  blockchain : Data
  sections : Data
  credentials : Option Str
  noUpload : Bool

/-- Everything the collection reads. -/
structure Surroundings where
  model : Model
  post : RpcRequest → Reply
  fits : ∀ request, (post request).Fits
  pgrep : Except Trouble Str
  cat : Str → Except Trouble Str
  version : VersionOutput
  /-- Exit status and output of `systemctl show`. -/
  systemctlShow : Except Trouble (ℤ × Str)
  parseCredentials : Str → Except UploaderError Str
  collectAndUpload : Upload → Except UploaderError Unit

variable (s : Surroundings)

/-- `config.get(name)`. -/
def option (name : Str) : Data := (find name s.model.config).getD .none

def rpcCall (method : Str) (params : List Data) : Except Exc Data :=
  match s.post ⟨str lib (orEmpty (option s "rpc-user".toList)),
      str lib (orEmpty (option s "rpc-password".toList)), method, params⟩ with
  | .failed m => .error (.requestException m)
  | .body (.dict body) =>
    if truthy (entry "error".toList body) then do
      let m ← redact lib (method ++ " failed: ".toList ++ str lib (entry "error".toList body))
      .error (.runtimeError m)
    else .ok (entry "result".toList body)
  | .body _ => .error .attributeError

def procPath (pid : Str) : Str := "/proc/".toList ++ pid ++ "/cmdline".toList

def serviceArgsPath : Str := "/etc/default/".toList ++ Service.node.name

def getClientProcCmdline : Except Exc Str := do
  let pids ← ran s.pgrep
  match words pids with
  | [] => .ok []
  | pid :: _ => do
    let out ← ran (s.cat (procPath pid))
    return unwords (out.splitOn '\x00')

def getServiceArgs : Except Exc Str := do
  let out ← ran (s.cat serviceArgsPath)
  return serviceArgsText out

/-- The command line of `build_runtime_metadata`. -/
def effectiveCmdline : Except Exc Str := do
  let process ← getClientProcCmdline s
  if process.isEmpty then getServiceArgs s else return process

/-- `^Bitcoin Core (?:daemon )?version (\S+)` -/
def installedVersionPattern : Pattern :=
  .seqs [.lineStart, .text "Bitcoin Core ".toList, .opt (.text "daemon ".toList),
    .text "version ".toList, .group 1 (.plus (.char (! isSpace ·)))]

def getVersion : Except Exc Str :=
  match s.version with
  | .unavailable => .ok []
  | .trouble t => .error t.exc
  | .output stdout => .ok (((search installedVersionPattern stdout).map (·.captured 1)).getD [])

def clientVersion (subversion : Str) : Except Exc Str :=
  match search HostSystem.subversionPattern subversion with
  | some m => .ok (m.captured 1)
  | none => do
    let version ← getVersion s
    let bare := match version with
      | 'v' :: rest => rest
      | _ => version
    return if bare.isEmpty then "unknown".toList else bare

def finiteInt (value : Str) : Except Exc Data :=
  if casefold lib.beyond value = "infinity".toList then .ok .none
  else do
    let parsed ← pyInt lib value
    return if 2 ^ 63 ≤ parsed then .none else .int parsed

/-- `([0-9]+(?:\.[0-9]+)?)(us|ms|s|min|h)?` -/
def timespanPattern : Pattern :=
  let digits := Pattern.plus (.char Char.isDigit)
  .seqs [.group 1 (.seq digits (.opt (.seq (.lit '.') digits))),
    .opt (.group 2 (.alts (["us", "ms", "s", "min", "h"].map (.text ·.toList))))]

/-- What digits behind a decimal point are worth. -/
def fractionValue (fraction : Str) : ℚ := decimal fraction / 10 ^ fraction.length

/-- The number that digits with or without a decimal point stand for. -/
def numberValue (number : Str) : ℚ :=
  match cutAt (· == '.') number with
  | (whole, none) => decimal whole
  | (whole, some fraction) => decimal whole + fractionValue fraction

/-- `multipliers[unit]`; no unit is the empty text. -/
def multiplier (unit : Str) : ℚ :=
  if unit = "ms".toList then 1000
  else if unit = "s".toList then 1000000
  else if unit = "min".toList then 60000000
  else if unit = "h".toList then 3600000000
  else 1

def timespanMicroseconds (value : Str) : Option Float64 :=
  if casefold lib.beyond value = "infinity".toList then none
  else (fullmatch timespanPattern value).map fun m =>
    (Float64.ofRat (numberValue (m.captured 1))).map (· * multiplier (m.captured 2))

/-- `None if quota_us is None else quota_us / 10_000.0` -/
def quotaPercent (value : Str) : Data :=
  match timespanMicroseconds lib value with
  | none => .none
  | some quota => .float (reprFloat (quota.map (· / 10000)))

/-- The properties that `systemctl show` prints; of two the later counts. -/
def properties (stdout : Str) : Dictionary Str Str :=
  (splitLines stdout).foldl (fun d line => match cutAt (· == '=') line with
    | (name, some value) => d.update name fun _ => value
    | (_, none) => d) .empty

/-- `values.get(name, "infinity")`. -/
def property (stdout name : Str) : Str := ((properties stdout).get name).getD "infinity".toList

/-- `get_systemd_limits`, where `check=True` raises for an exit status. -/
def getSystemdLimits : Except Exc Data := do
  let (status, stdout) ← ran s.systemctlShow
  if status ≠ 0 then .error .calledProcessError
  else do
    let quota := quotaPercent lib (property stdout "CPUQuotaPerSecUSec".toList)
    let memoryMax ← finiteInt lib (property stdout "MemoryMax".toList)
    let memoryHigh ← finiteInt lib (property stdout "MemoryHigh".toList)
    let tasksMax ← finiteInt lib (property stdout "TasksMax".toList)
    return record [("memory_max_bytes".toList, memoryMax), ("memory_high_bytes".toList, memoryHigh),
      ("cpu_quota_percent".toList, quota), ("tasks_max".toList, tasksMax)]

def intFlag (flags : Flags) (name : Str) (fallback : ℤ) : ℤ :=
  match firstFlag flags name with
  | none => fallback
  | some value => (pyInt lib value).toOption.getD fallback

def proxyPort : Data :=
  match rcutAt (· == ':') (str lib (orEmpty (option s "rpc-proxy-listen".toList))) with
  | (none, _) => .none
  | (some _, port) => ((pyInt lib port).toOption.map .int).getD .none

/-- The `port` of a parsed URL; `none` also stands for a `ValueError`. -/
def urlPort (url : Str) : Option ℕ := do
  let parsed ← (ReleaseInstaller.urlsplit lib.urls url).toOption
  let hostinfo := (rcutAt (· == '@') parsed.netloc).2
  let behind := match cutAt (· == '[') hostinfo with
    | (_, some bracketed) => ((cutAt (· == ']') bracketed).2).getD []
    | (_, none) => hostinfo
  let port ← (cutAt (· == ':') behind).2
  if port.isEmpty || !port.all Char.isDigit || ReleaseInstaller.intMaxStrDigits < port.length ||
      65535 < decimal port then none
  else some (decimal port)

def FlagValue.values : FlagValue → List Str
  | .one value => [value]
  | .many first second later => first :: second :: later

def zmqPorts (flags : Flags) : List ℕ :=
  let values := flags.entries.flatMap fun f =>
    if "zmqpub".toList.isPrefixOf f.1 then FlagValue.values f.2 else []
  ((values.filterMap (urlPort lib)).dedup).insertionSort (· ≤ ·)

structure Network where
  name : Str
  magic : Data
  p2p : ℕ
  rpc : ℕ

/-- `_NETWORKS`, and what stands in for a chain that is not in it. -/
def networkOf (chain : Str) : Network :=
  let table : List (Str × Network) :=
    [("main".toList, ⟨"Bitcoin mainnet".toList, .str "f9beb4d9".toList, 8333, 8332⟩),
      ("test".toList, ⟨"Bitcoin testnet3".toList, .str "0b110907".toList, 18333, 18332⟩),
      ("testnet4".toList, ⟨"Bitcoin testnet4".toList, .str "1c163f28".toList, 48333, 48332⟩),
      ("signet".toList, ⟨"Bitcoin signet".toList, .str "0a03cf40".toList, 38333, 38332⟩),
      ("regtest".toList, ⟨"Bitcoin regtest".toList, .str "fabfb5da".toList, 18444, 18443⟩)]
  (find chain table).getD ⟨"Bitcoin ".toList ++ chain, .none, 0, 0⟩

def flagData : FlagValue → Data
  | .one value => .str value
  | .many first second later => .list ((first :: second :: later).map .str)

def chainName (chain : Entries) : Str :=
  if truthy (entry "chain".toList chain) then str lib (entry "chain".toList chain)
  else "unknown".toList

def blockchainRecord (chain : Entries) (genesisHash : Data) (version cmdline : Str) : Data :=
  record [("blockchain_ecosystem".toList, .str "bitcoin".toList),
    ("blockchain_network_name".toList, .str (networkOf (chainName lib chain)).name),
    ("client_name".toList, .str "bitcoin-core".toList),
    ("client_version".toList, .str version),
    ("cmdline".toList, .str cmdline),
    ("binary_path".toList, .str binaryPath),
    ("genesis_hash".toList, .str (str lib genesisHash))]

def bitcoinSection (network chain indexes : Entries) (flags : Flags) : Data :=
  let pruned := truthy (entry "pruned".toList chain)
  let known := networkOf (chainName lib chain)
  record [("chain".toList, .str (chainName lib chain)),
    ("network_magic".toList, known.magic),
    ("protocol_version".toList, entry "protocolversion".toList network),
    ("blocks".toList, entry "blocks".toList chain),
    ("headers".toList, entry "headers".toList chain),
    ("best_block_hash".toList, entry "bestblockhash".toList chain),
    ("initial_block_download".toList, entry "initialblockdownload".toList chain),
    ("effective_flags".toList, record (flags.entries.map fun f => (f.1, flagData f.2))),
    ("pruning".toList, record [("enabled".toList, .bool pruned),
      ("automatic".toList, .bool (pruned && truthy (entry "automatic_pruning".toList chain))),
      ("target_bytes".toList,
        if pruned then entry "prune_target_size".toList chain else .none),
      ("height".toList, if pruned then entry "pruneheight".toList chain else .none)]),
    ("indexes".toList, .dict indexes),
    ("ports".toList, record [("p2p".toList, .int (intFlag lib flags "port".toList known.p2p)),
      ("rpc_internal".toList, .int (intFlag lib flags "rpcport".toList known.rpc)),
      ("rpc_proxy".toList, proxyPort lib s),
      ("zmq".toList, .list ((zmqPorts lib flags).map fun p => .int p))])]

def sectionsRecord (network chain indexes : Entries) (cmdline : Str) (limits : Data) : Data :=
  record [("bitcoin".toList,
      bitcoinSection lib s network chain indexes (parseEffectiveFlags lib.beyond cmdline)),
    ("resource_limits".toList, limits)]

/-- The part of `build_runtime_metadata` behind the type check of the results. -/
def describeRuntime (network chain indexes : Entries) (genesisHash : Data) :
    Except Exc (Data × Data) := do
  let cmdline ← effectiveCmdline s
  let version ← clientVersion s (str lib (orEmpty (entry "subversion".toList network)))
  let shown ← redact lib cmdline
  let limits ← getSystemdLimits lib s
  let blockchain ← redacting (redactOutput lib.redaction
    (blockchainRecord lib chain genesisHash version shown))
  let sections ← redacting (redactOutput lib.redaction
    (sectionsRecord lib s network chain indexes cmdline limits))
  return (blockchain, sections)

def buildRuntimeMetadata : Except Exc (Data × Data) := do
  let network ← rpcCall lib s "getnetworkinfo".toList []
  let chain ← rpcCall lib s "getblockchaininfo".toList []
  let genesisHash ← rpcCall lib s "getblockhash".toList [.int 0]
  let indexes ← rpcCall lib s "getindexinfo".toList []
  match network, chain, indexes with
  | .dict network, .dict chain, .dict indexes =>
    describeRuntime lib s network chain indexes genesisHash
  | _, _, _ => .error (.runtimeError "Bitcoin Core returned invalid metadata response types".toList)

def redactedRelation (r : Relation) : Except PythonError RedactedRelation := do
  let data ← r.data.mapM fun (endpoint, databag) => do
    let bag ← redactOutput lib.redaction (record (databag.map fun e => (e.1, .str e.2)))
    return (endpoint, bag)
  return ⟨r.id, data⟩

/-- The model view; the option with the credentials is left out. -/
def redactedModelView (model : Model) : Except PythonError ModelView := do
  let options := model.config.filter fun e => e.1 ≠ "collector-s3-credentials".toList
  let config ← redactEntries lib.redaction (redactAt lib.redaction) lib.redaction.room
    (options.map fun e => (.str e.1, e.2))
  let relations ← model.relations.mapM fun (name, rs) => do
    let redacted ← rs.mapM (redactedRelation lib)
    return (name, redacted)
  return ⟨model.name, model.uuid, config, relations⟩

def secretId : Data := option s "collector-s3-credentials".toList

/-- The credentials, if the option is set. -/
def credentials : Except Exc (Option Str) :=
  if truthy (secretId s) then do
    let c ← uploading (s.parseCredentials (str lib (secretId s)))
    return some c
  else return none

/-- The `try` block of `collect_upload_metadata`. -/
def collect : Except Exc Unit := do
  let credentials ← credentials lib s
  let (blockchain, sections) ← buildRuntimeMetadata lib s
  let model ← redacting (redactedModelView lib s.model)
  let blockchain ← redacting (redactOutput lib.redaction blockchain)
  let sections ← redacting (redactOutput lib.redaction sections)
  uploading (s.collectAndUpload ⟨model, blockchain, sections, credentials, credentials.isNone⟩)

def report (opening message : Str) : Except Exc (Option Str) := do
  let shown ← redact lib message
  return some (opening ++ ": ".toList ++ shown)

def collectUploadMetadata : Except Exc (Option Str) :=
  match collect lib s with
  | .ok () => .ok none
  | .error (.validation m) =>
    report lib (if truthy (secretId s) then "invalid collector-s3-credentials".toList
      else "invalid blockchain metadata".toList) m
  | .error (.upload m) => report lib "metadata upload failed".toList m
  | .error (.osError m) | .error (.requestException m) | .error (.runtimeError m)
  | .error (.valueError m) => report lib "metadata collection failed".toList m
  | .error exc => .error exc

end BitcoinRpcOperator.MetadataCollection
