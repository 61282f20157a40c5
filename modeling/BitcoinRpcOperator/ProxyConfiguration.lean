import BitcoinRpcOperator.ProxyHandler
import BitcoinRpcOperator.RaisedExceptions

/-!
# Configuration of the proxy

`internal/app/config.go`: every setting has a default, a variable that overrides it and a
flag that overrides both.
-/

namespace BitcoinRpcOperator.ProxyConfiguration
open Text RaisedExceptions ProxyHandler

/-- `Config`; durations are in nanoseconds. -/
structure ProxyConfig where
  listen : Str
  adminListen : Str
  logLevel : Str
  upstreamUrl : Str
  upstreamTimeout : ℤ
  upstreamUser : Str
  upstreamPassword : Str
  maxBodyBytes : ℤ
  extendAllowlist : List Str
  filter : Bool

/-- The flags that were given. -/
structure Flags where
  listen : Option Str := none
  adminListen : Option Str := none
  logLevel : Option Str := none
  upstreamUrl : Option Str := none
  upstreamTimeout : Option ℤ := none
  upstreamUser : Option Str := none
  upstreamPassword : Option Str := none
  maxBodyBytes : Option ℤ := none
  extendAllowlist : Option Str := none
  filter : Option Bool := none
  version : Bool := false

/-- `os.LookupEnv`. -/
abbrev Environment := Str → Option Str

/-- What is used of the standard library: `time.ParseDuration`, and whether `url.Parse`
finds a scheme and a host. -/
structure GoLibrary where
  parseDuration : Str → Option ℤ
  hasSchemeAndHost : Str → Bool

inductive ConfigError where
  | invalidVariable (name value : Str)
  | emptyListen
  | emptyAdminListen
  | upstreamTimeout
  | maxBodyBytes
  | invalidUpstreamUrl (url : Str)
  deriving DecidableEq, Repr

def parseExtendList (csv : Str) : List Str :=
  ((csv.splitOn ',').map trimRunes).filter (! ·.isEmpty)

def parseBool (s : Str) : Option Bool :=
  if s ∈ ["1", "t", "T", "true", "TRUE", "True"].map String.toList then some true
  else if s ∈ ["0", "f", "F", "false", "FALSE", "False"].map String.toList then some false
  else none

def parseDigits (s : Str) : Option ℕ :=
  if s ≠ [] ∧ s.all Char.isDigit then
    some (s.foldl (fun n c => 10 * n + (c.toNat - '0'.toNat)) 0)
  else none

/-- `strconv.ParseInt` in base ten with 64 bits. -/
def parseInt64 (s : Str) : Option ℤ :=
  let parsed : Option ℤ := match s with
    | '-' :: digits => (parseDigits digits).map fun n => -(n : ℤ)
    | '+' :: digits => (parseDigits digits).map fun n => (n : ℤ)
    | digits => (parseDigits digits).map fun n => (n : ℤ)
  parsed.filter fun n => -2 ^ 63 ≤ n ∧ n < 2 ^ 63

def applyEnvString (env : Environment) (flag : Option Str) (name default : Str) : Str :=
  flag.getD ((env name).getD default)

def applyEnvLogLevel (env : Environment) (flag : Option Str) (default : Str) : Str :=
  flag.getD ((env "PROXY_LOG_LEVEL".toList).getD ((env "LOG_LEVEL".toList).getD default))

/-- A setting that is parsed; the text of a variable is looked at only without a flag. -/
def applyEnvParsed {α : Type} (parse : Str → Option α) (env : Environment) (flag : Option α)
    (name : Str) (default : α) : Except ConfigError α :=
  match flag, env name with
  | some v, _ => .ok v
  | none, none => .ok default
  | none, some text =>
    match parse text with
    | some v => .ok v
    | none => .error (.invalidVariable name text)

def applyEnvDuration (lib : GoLibrary) : Environment → Option ℤ → Str → ℤ → Except ConfigError ℤ :=
  applyEnvParsed lib.parseDuration

def applyEnvInt64 : Environment → Option ℤ → Str → ℤ → Except ConfigError ℤ :=
  applyEnvParsed parseInt64

def applyEnvBool : Environment → Option Bool → Str → Bool → Except ConfigError Bool :=
  applyEnvParsed parseBool

def defaultListen : Str := "0.0.0.0:8331".toList

def defaultAdminListen : Str := "127.0.0.1:8360".toList

def defaultLogLevel : Str := "info".toList

def defaultUpstreamUrl : Str := "http://127.0.0.1:8332".toList

def defaultUpstreamTimeout : ℤ := 30 * 10 ^ 9

def defaultMaxBodyBytes : ℤ := 262144

def ProxyConfig.validate (lib : GoLibrary) (c : ProxyConfig) : Except ConfigError Unit :=
  if c.listen = [] then .error .emptyListen
  else if c.adminListen = [] then .error .emptyAdminListen
  else if c.upstreamTimeout ≤ 0 then .error .upstreamTimeout
  else if c.maxBodyBytes ≤ 0 then .error .maxBodyBytes
  else if lib.hasSchemeAndHost c.upstreamUrl then .ok ()
  else .error (.invalidUpstreamUrl c.upstreamUrl)

def resolve (lib : GoLibrary) (flags : Flags) (env : Environment) :
    Except ConfigError ProxyConfig := do
  let upstreamTimeout ← applyEnvDuration lib env flags.upstreamTimeout
    "PROXY_UPSTREAM_TIMEOUT".toList defaultUpstreamTimeout
  let maxBodyBytes ← applyEnvInt64 env flags.maxBodyBytes "PROXY_MAX_BODY_BYTES".toList
    defaultMaxBodyBytes
  let filter ← applyEnvBool env flags.filter "PROXY_FILTER".toList true
  .ok {
    listen := applyEnvString env flags.listen "PROXY_LISTEN".toList defaultListen
    adminListen := applyEnvString env flags.adminListen "PROXY_ADMIN_LISTEN".toList
      defaultAdminListen
    logLevel := applyEnvLogLevel env flags.logLevel defaultLogLevel
    upstreamUrl := applyEnvString env flags.upstreamUrl "PROXY_UPSTREAM_URL".toList
      defaultUpstreamUrl
    upstreamTimeout
    upstreamUser := applyEnvString env flags.upstreamUser "PROXY_UPSTREAM_USER".toList []
    upstreamPassword := applyEnvString env flags.upstreamPassword
      "PROXY_UPSTREAM_PASSWORD".toList []
    maxBodyBytes
    extendAllowlist := parseExtendList
      (applyEnvString env flags.extendAllowlist "PROXY_EXTEND_ALLOWLIST".toList [])
    filter }

/-- `Parse`: the configuration, and whether only the version is asked for. -/
def parse (lib : GoLibrary) (flags : Flags) (env : Environment) :
    Except ConfigError (ProxyConfig × Bool) := do
  let cfg ← resolve lib flags env
  if flags.version then .ok (cfg, true)
  else do
    cfg.validate lib
    .ok (cfg, false)

/-- Without flags, an accepted configuration takes its allowlist and its filter from the
environment. -/
theorem parse_policy {lib : GoLibrary} {env : Environment} {cfg : ProxyConfig} {version : Bool}
    (h : parse lib {} env = .ok (cfg, version)) :
    cfg.extendAllowlist = parseExtendList ((env "PROXY_EXTEND_ALLOWLIST".toList).getD []) ∧
      applyEnvBool env none "PROXY_FILTER".toList true = .ok cfg.filter := by
  obtain ⟨cfg', hresolve, h⟩ := bind_eq_ok.1 h
  obtain ⟨timeout, -, hresolve⟩ := bind_eq_ok.1 hresolve
  obtain ⟨maxBody, -, hresolve⟩ := bind_eq_ok.1 hresolve
  obtain ⟨filter, hfilter, hresolve⟩ := bind_eq_ok.1 hresolve
  have hcfg : cfg' = cfg := by
    obtain ⟨-, -, h⟩ := bind_eq_ok.1 h
    exact congrArg Prod.fst (Except.ok.inj h)
  rw [hcfg] at hresolve
  have hfields := Except.ok.inj hresolve
  subst hfields
  exact ⟨rfl, hfilter⟩

/-- A setting that is on by default is off only if its variable says so. -/
theorem applyEnvBool_true {env : Environment} {name : Str} {b : Bool}
    (h : applyEnvBool env none name true = .ok b)
    (hvalue : ∀ text, env name = some text → parseBool text ≠ some false) : b = true := by
  unfold applyEnvBool applyEnvParsed at h
  cases henv : env name with
  | none =>
    rw [henv] at h
    exact (Except.ok.inj h).symm
  | some text =>
    have hnot := hvalue text henv
    simp only [henv] at h
    cases hbool : parseBool text with
    | none =>
      rw [hbool] at h
      cases h
    | some c =>
      rw [hbool] at h hnot
      obtain rfl : c = b := Except.ok.inj h
      cases c with
      | true => rfl
      | false => exact absurd rfl hnot

end BitcoinRpcOperator.ProxyConfiguration
