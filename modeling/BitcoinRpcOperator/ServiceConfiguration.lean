import BitcoinRpcOperator.Text

/-!
# Charm options and the environment files rendered from them

The options of the charm, the constants of `constants.py`, and the three pure
renderings behind `update_service_args`, `write_monitor_env_file` and
`write_rpc_proxy_env_file`. Writing the rendered text to disk is in `HostSystem`
and `ConfigTransaction`.
-/

namespace BitcoinRpcOperator.ServiceConfiguration
open Text

/-- The host-facing options the charm tracks, and the one it does not. -/
inductive Key where
  | rpcUser | rpcPassword | serviceArgs | version | binaryUrl | rpcProxyFilter
  | rpcProxyVersion | rpcProxyListen | rpcProxyExtendAllowlist | disableWallet
  | collectorS3Credentials
  deriving DecidableEq, Repr

/-- What `config.get` returns: an unset option, a boolean or a text. -/
inductive Value where
  | none
  | bool (b : Bool)
  | str (s : Str)
  deriving DecidableEq, Repr

namespace Value

def truthy : Value → Bool
  | .none => false
  | .bool b => b
  | .str s => !s.isEmpty

/-- `str(value)`. -/
def toText : Value → Str
  | .none => "None".toList
  | .bool true => "True".toList
  | .bool false => "False".toList
  | .str s => s

/-- `str(value or "")`. -/
def orEmpty (v : Value) : Str := if v.truthy then v.toText else []

end Value

abbrev Config := Key → Value

def trackedConfig : List Key :=
  [.rpcUser, .rpcPassword, .serviceArgs, .version, .binaryUrl, .rpcProxyFilter,
    .rpcProxyVersion, .rpcProxyListen, .rpcProxyExtendAllowlist, .disableWallet]

/-- The tracked keys on which two configurations differ. -/
def changedKeys (previous config : Config) : Finset Key :=
  trackedConfig.toFinset.filter fun k => previous k ≠ config k

/-- The three systemd services. -/
inductive Service where
  | node | monitor | rpcProxy
  deriving DecidableEq, Repr

def Service.name : Service → Str
  | .node => "bitcoind".toList
  | .monitor => "bitcoind-monitor".toList
  | .rpcProxy => "bitcoin-rpc-proxy".toList

def bitcoindRpcPort : Str := "8332".toList

def dlUrl : Str :=
  "https://bitcoincore.org/bin/bitcoin-core-VERSION/bitcoin-VERSION-x86_64-linux-gnu.tar.gz".toList

def rpcProxyDlUrl : Str :=
  ("https://github.com/dwellir-public/bitcoin-rpc-operator/releases/download/" ++
    "vVERSION/bitcoin-rpc-proxy-VERSION-linux-amd64").toList

def monitorEnv : List (Str × Str) :=
  [("BITCOIN_RPC_SCHEME".toList, "http".toList),
    ("BITCOIN_RPC_HOST".toList, "localhost".toList),
    ("BITCOIN_RPC_PORT".toList, bitcoindRpcPort),
    ("BITCOIN_RPC_USER".toList, "default".toList),
    ("BITCOIN_RPC_PASSWORD".toList, "default".toList),
    ("METRICS_PORT".toList, "9332".toList),
    ("METRICS_ADDR".toList, []),
    ("LOG_LEVEL".toList, "INFO".toList),
    ("BAN_ADDRESS_METRICS".toList, "true".toList)]

def rpcProxyEnv : List (Str × Str) :=
  [("PROXY_LISTEN".toList, "0.0.0.0:8331".toList),
    ("PROXY_ADMIN_LISTEN".toList, "0.0.0.0:8360".toList),
    ("PROXY_UPSTREAM_URL".toList, "http://127.0.0.1:".toList ++ bitcoindRpcPort),
    ("PROXY_UPSTREAM_TIMEOUT".toList, "30s".toList),
    ("PROXY_UPSTREAM_USER".toList, "default".toList),
    ("PROXY_UPSTREAM_PASSWORD".toList, "default".toList),
    ("PROXY_MAX_BODY_BYTES".toList, "262144".toList),
    ("PROXY_EXTEND_ALLOWLIST".toList, []),
    ("PROXY_FILTER".toList, "true".toList),
    ("PROXY_LOG_LEVEL".toList, "info".toList)]

def rpcBindOpts : List Str := ["rpcbind".toList, "rpcallowip".toList, "rpcport".toList]

def walletOpts : List Str := ["disablewallet".toList, "wallet".toList]

/-- `_opt_name`: leading dashes, any `=value` and one `no` prefix dropped. -/
def optName (token : Str) : Str :=
  let name := (cutAt (· == '=') (lstripBy (· == '-') token)).1
  if "no".toList.isPrefixOf name && 2 < name.length then name.drop 2 else name

def pinnedTokens : List Str :=
  ["-rpcbind=127.0.0.1".toList, "-rpcbind=[::1]".toList, "-rpcport=".toList ++ bitcoindRpcPort]

/-- The tokens that `harden_service_args` joins. -/
def hardenedTokens (serviceArgs : Str) (config : Config) : List Str :=
  let tokens := (words serviceArgs).filter (fun t => optName t ∉ rpcBindOpts) ++ pinnedTokens
  if (config .disableWallet).truthy then
    tokens.filter (fun t => optName t ∉ walletOpts) ++ ["-disablewallet".toList]
  else tokens

def hardenServiceArgs (serviceArgs : Str) (config : Config) : Str :=
  unwords (hardenedTokens serviceArgs config)

/-- The credential flags appended after the hardening. -/
def credentialArgs (config : Config) : Str :=
  if (config .rpcUser).truthy && (config .rpcPassword).truthy then
    " -rpcuser=".toList ++ (config .rpcUser).toText ++
      " -rpcpassword=".toList ++ (config .rpcPassword).toText
  else []

/-- The arguments `update_service_args` puts between the quotes. -/
def serviceArguments (config : Config) : Str :=
  hardenServiceArgs (config .serviceArgs).orEmpty config ++ credentialArgs config

/-- `update_service_args`: the text of `/etc/default/bitcoind`. -/
def renderNodeEnv (config : Config) : Str :=
  "BITCOIND_CLI_ARGS=\"".toList ++ serviceArguments config ++ ['"']

def envLine (key value : Str) : Str := key ++ '=' :: value ++ ['\n']

/-- `write_monitor_env_file`: the text of `/etc/default/bitcoind-monitor`. -/
def renderMonitorEnv (config : Config) : Str :=
  monitorEnv.flatMap fun (key, value) =>
    let value := if key = "BITCOIN_RPC_PASSWORD".toList ∧ (config .rpcPassword).truthy then
      (config .rpcPassword).toText else value
    let value := if key = "BITCOIN_RPC_USER".toList ∧ (config .rpcUser).truthy then
      (config .rpcUser).toText else value
    envLine key value

/-- The option behind each overridable variable of the proxy. -/
def rpcProxyOverride (config : Config) (key : Str) : Value :=
  if key = "PROXY_LISTEN".toList then config .rpcProxyListen
  else if key = "PROXY_EXTEND_ALLOWLIST".toList then config .rpcProxyExtendAllowlist
  else if key = "PROXY_UPSTREAM_USER".toList then config .rpcUser
  else if key = "PROXY_UPSTREAM_PASSWORD".toList then config .rpcPassword
  else .none

/-- `write_rpc_proxy_env_file`: the text of `/etc/default/bitcoin-rpc-proxy`. -/
def renderRpcProxyEnv (config : Config) : Str :=
  rpcProxyEnv.flatMap fun (key, value) =>
    if key = "PROXY_FILTER".toList then
      envLine key (if (config .rpcProxyFilter).truthy then "true".toList else "false".toList)
    else if (rpcProxyOverride config key).truthy then
      envLine key (rpcProxyOverride config key).toText
    else envLine key value

/-- The text of a service's environment file. -/
def renderEnv (config : Config) : Service → Str
  | .node => renderNodeEnv config
  | .monitor => renderMonitorEnv config
  | .rpcProxy => renderRpcProxyEnv config

/-- The options a service's environment file is rendered from. -/
def envInputs : Service → Finset Key
  | .node => {.rpcUser, .rpcPassword, .serviceArgs, .disableWallet}
  | .monitor => {.rpcUser, .rpcPassword}
  | .rpcProxy => {.rpcUser, .rpcPassword, .rpcProxyListen, .rpcProxyExtendAllowlist,
      .rpcProxyFilter}

/-- A rendering reads nothing but its inputs. -/
theorem renderEnv_congr {p n : Config} (s : Service) (h : ∀ k ∈ envInputs s, p k = n k) :
    renderEnv p s = renderEnv n s := by
  cases s with
  | node =>
    simp only [envInputs, Finset.mem_insert, Finset.mem_singleton, forall_eq_or_imp,
      forall_eq] at h
    obtain ⟨hu, hp, ha, hw⟩ := h
    unfold renderEnv renderNodeEnv serviceArguments credentialArgs hardenServiceArgs hardenedTokens
    rw [hu, hp, ha, hw]
  | monitor =>
    simp only [envInputs, Finset.mem_insert, Finset.mem_singleton, forall_eq_or_imp,
      forall_eq] at h
    obtain ⟨hu, hp⟩ := h
    unfold renderEnv renderMonitorEnv
    rw [hu, hp]
  | rpcProxy =>
    simp only [envInputs, Finset.mem_insert, Finset.mem_singleton, forall_eq_or_imp,
      forall_eq] at h
    obtain ⟨hu, hp, hl, hx, hf⟩ := h
    unfold renderEnv renderRpcProxyEnv rpcProxyOverride
    rw [hu, hp, hl, hx, hf]

end BitcoinRpcOperator.ServiceConfiguration
