import BitcoinRpcOperator.RpcRequests

/-!
# The filtering proxy

`internal/policy`, `Client.Forward` of `internal/upstream` and the handler of
`internal/handler`. A request is handled by passing an `Exchange` along: what was written
to the client, what was handed to the upstream and what was recorded.
-/

namespace BitcoinRpcOperator.ProxyHandler
open Text JsonText RpcRequests

def baseline : List Str :=
  ["getbestblockhash", "getblock", "getblockchaininfo", "getblockcount", "getblockfilter",
    "getblockhash", "getblockheader", "getchaintips", "getchaintxstats", "getdeploymentinfo",
    "getdifficulty", "getmempoolancestors", "getmempooldescendants", "getmempoolentry",
    "getmempoolinfo", "gettxout", "verifytxoutproof", "getmemoryinfo", "help", "uptime",
    "getmininginfo", "getnetworkhashps", "getconnectioncount", "getnettotals", "ping",
    "analyzepsbt", "combinepsbt", "combinerawtransaction", "converttopsbt", "createpsbt",
    "createrawtransaction", "decodepsbt", "decoderawtransaction", "decodescript", "finalizepsbt",
    "getrawtransaction", "joinpsbts", "testmempoolaccept", "utxoupdatepsbt", "createmultisig",
    "deriveaddresses", "estimaterawfee", "estimatesmartfee", "getdescriptorinfo", "getindexinfo",
    "validateaddress", "verifymessage"].map String.toList

/-- `strings.TrimSpace`. -/
def trimRunes (s : Str) : Str := (s.dropWhile isSpaceRune).rdropWhile isSpaceRune

/-- The method names a policy permits. -/
structure Allowlist where
  allowed : List Str

/-- `NewAllowlist`: the baseline and the trimmed, non-empty entries of `extend`. -/
def newAllowlist (extend : List Str) : Allowlist :=
  ⟨baseline ++ (extend.map trimRunes).filter (! ·.isEmpty)⟩

def Allowlist.permits (a : Allowlist) (method : Str) : Bool := decide (method ∈ a.allowed)

/-- `http.Header`: the values of each key. -/
abbrev Header := List (Str × List Str)

/-- The bytes of a valid header name. -/
def isTokenChar (c : Char) : Bool :=
  c.isAlphanum || "!#$%&'*+-.^_`|~".toList.contains c

def canonicalize : Bool → Str → Str
  | _, [] => []
  | upper, c :: cs => (if upper then c.toUpper else c.toLower) :: canonicalize (c == '-') cs

def canonicalHeaderKey (key : Str) : Str :=
  if key.all isTokenChar then canonicalize true key else key

namespace Header

def values (h : Header) (key : Str) : List Str :=
  ((h.find? fun e => e.1 == canonicalHeaderKey key).map (·.2)).getD []

def get (h : Header) (key : Str) : Str := (h.values key).headD []

def set (h : Header) (key value : Str) : Header :=
  (canonicalHeaderKey key, [value]) :: h.filter fun e => e.1 != canonicalHeaderKey key

def add (h : Header) (key value : Str) : Header :=
  (canonicalHeaderKey key, h.values key ++ [value]) ::
    h.filter fun e => e.1 != canonicalHeaderKey key

end Header

def hopByHop : List Str :=
  ["Connection", "Keep-Alive", "Proxy-Authenticate", "Proxy-Authorization", "Te", "Trailer",
    "Transfer-Encoding", "Upgrade"].map String.toList

def copyForwardHeaders (dst src : Header) : Header :=
  src.foldl (fun dst (key, vals) =>
    if hopByHop.contains (canonicalHeaderKey key) then dst
    else vals.foldl (fun dst v => dst.add key v) dst) dst

structure HttpRequest where
  url : Bytes
  header : Header
  body : Bytes

/-- What the error of an exchange with the upstream is known as: whether it is
`context.DeadlineExceeded`, and for a `net.Error` whether it is a timeout. -/
structure NetFailure where
  deadlineExceeded : Bool
  netError : Option Bool
  deriving DecidableEq, Repr

/-- An answer whose head has arrived; reading its body may still fail. Its status has three
digits and is not an interim one, which `net/http` keeps to itself. -/
structure Answer where
  status : ℕ
  headers : Header
  body : Except NetFailure Bytes
  digits : status ≤ 999
  final : status < 100 ∨ status = 101 ∨ 200 ≤ status

/-- `net/http` as the client sees it: which URLs make a request, and what sending one
comes to. -/
structure Net where
  accepts : Bytes → Bool
  send : HttpRequest → Except NetFailure Answer

structure Response where
  status : ℕ
  headers : Header
  body : Bytes

inductive ForwardError where
  | badRequest | timeout | unavailable
  deriving DecidableEq, Repr

def classifyUpstreamError (e : NetFailure) : ForwardError :=
  if e.deadlineExceeded then .timeout
  else match e.netError with
    | some true => .timeout
    | some false => .unavailable
    | none => .unavailable

structure Client where
  baseUrl : Bytes
  /-- Injected when the caller sent no credentials; empty when there are none. -/
  authHeader : Str

def basicAuth (user password : Str) : Str :=
  if user = [] then [] else "Basic ".toList ++ base64 (utf8 (user ++ ':' :: password))

def Client.setUpstreamAuth (c : Client) (user password : Str) : Client :=
  { c with authHeader := basicAuth user password }

/-- The request `Forward` sends. -/
def Client.upstreamRequest (c : Client) (path : Bytes) (header : Header) (body : Bytes) :
    HttpRequest :=
  let forwarded := (copyForwardHeaders [] header).set "Content-Type".toList
    "application/json".toList
  { url := c.baseUrl ++ path
    header := if c.authHeader ≠ [] ∧ forwarded.get "Authorization".toList = [] then
      forwarded.set "Authorization".toList c.authHeader else forwarded
    body }

def Client.forward (c : Client) (net : Net) (path : Bytes) (header : Header) (body : Bytes) :
    Except ForwardError Response :=
  if net.accepts (c.baseUrl ++ path) then
    match net.send (c.upstreamRequest path header body) with
    | .error e => .error (classifyUpstreamError e)
    | .ok answer =>
      match answer.body with
      | .error _ => .error .unavailable
      | .ok respBody => .ok ⟨answer.status, answer.headers, respBody⟩
  else .error .badRequest

structure Written where
  status : ℕ
  contentType : Str
  body : Bytes
  deriving DecidableEq, Repr

structure Forwarded where
  path : Bytes
  header : Header
  body : Bytes
  deriving DecidableEq, Repr

inductive Decision where
  | allowed | denied
  deriving DecidableEq, Repr

inductive Record where
  | request (decision : Decision) (status : ℕ)
  | deniedMethod (method : Str)
  | duration
  deriving DecidableEq, Repr

structure Exchange where
  written : List Written := []
  forwarded : List Forwarded := []
  recorded : List Record := []
  panicked : Bool := false
  deriving DecidableEq, Repr

structure Handler where
  allow : Allowlist
  client : Client
  maxBody : ℕ
  filter : Bool
  /-- Whether there is a `Recorder`. -/
  recording : Bool

/-- A request; `path` is the decoded one, and `interrupted` says that the body ends in a
read error. -/
structure Request where
  path : Bytes
  header : Header
  body : Bytes
  interrupted : Bool

namespace Handler

def jsonContentType : Str := "application/json".toList

def malformedMsg : Str := "malformed JSON-RPC request body".toList

def tooLargeMsg : Str := "request body too large".toList

def batchRejectedMsg : Str :=
  "request not executed: batch contains a method not allowed by proxy policy".toList

def timeoutMsg : Str := "upstream timeout".toList

def unavailableMsg : Str := "upstream unavailable".toList

def missingMethod : Str := "<missing>".toList

def record (h : Handler) (r : Record) (x : Exchange) : Exchange :=
  if h.recording then { x with recorded := x.recorded ++ [r] } else x

/-- `WriteHeader` and `Write`; a status that is no HTTP status makes `WriteHeader` panic. -/
def write (status : ℕ) (contentType : Str) (body : Bytes) (x : Exchange) : Exchange :=
  if 100 ≤ status ∧ status ≤ 999 then
    { x with written := x.written ++ [⟨status, contentType, body⟩] }
  else { x with panicked := true }

def writeJson (status : ℕ) (body : Json) : Exchange → Exchange :=
  write status jsonContentType (marshal body)

def writeUpstreamResponse (resp : Response) : Exchange → Exchange :=
  let contentType := resp.headers.get "Content-Type".toList
  write resp.status (if contentType = [] then jsonContentType else contentType) resp.body

def simpleError (code : ErrorCode) (msg : Str) : Json := ({} : Call).errorReply code msg

def envelopeErrorBody (env : Envelope) (code : ErrorCode) (msg : Str) : Json :=
  if env.isBatch then .array (env.calls.map fun call => call.errorReply code msg)
  else match env.calls with
    | [] => simpleError code msg
    | call :: _ => call.errorReply code msg

def methodLabel (call : Call) : Str := if call.method = [] then missingMethod else call.method

def allowed (h : Handler) (call : Call) : Bool :=
  call.method ≠ [] && h.allow.permits call.method

def anyDenied (h : Handler) (env : Envelope) : Bool :=
  h.filter && env.calls.any fun call => !h.allowed call

/-- `denyBody`: the reply, and the labels of the denied calls. -/
def denyBody (h : Handler) (env : Envelope) : Json × List Str :=
  if env.isBatch then
    (.array (env.calls.map fun call =>
      if h.allowed call then call.errorReply .invalidRequest batchRejectedMsg else call.denyError),
     (env.calls.filter fun call => !h.allowed call).map methodLabel)
  else
    -- there is exactly one
    let call := env.calls.headD {}
    (call.denyError, [methodLabel call])

def reject (h : Handler) (status : ℕ) (body : Json) (x : Exchange) : Exchange :=
  writeJson status body (h.record (.request .denied status) x)

/-- What reading the body through `MaxBytesReader` comes to. -/
inductive ReadError where
  | tooLarge | other
  deriving DecidableEq, Repr

def readBody (h : Handler) (r : Request) : Except ReadError Bytes :=
  if h.maxBody < r.body.length then .error .tooLarge
  else if r.interrupted then .error .other
  else .ok r.body

def handleReadError (h : Handler) : ReadError → Exchange → Exchange
  | .tooLarge => h.reject 413 (simpleError .invalidRequest tooLargeMsg)
  | .other => h.reject 400 (simpleError .parseError malformedMsg)

def handleUpstreamError (h : Handler) (env : Envelope) (e : ForwardError) (x : Exchange) :
    Exchange :=
  let status := if e = .timeout then 504 else 502
  let msg := if e = .timeout then timeoutMsg else unavailableMsg
  writeJson status (envelopeErrorBody env .internalError msg)
    (h.record (.request .allowed status) x)

def forward (h : Handler) (net : Net) (r : Request) (env : Envelope) (x : Exchange) : Exchange :=
  let x := { x with forwarded := x.forwarded ++ [⟨r.path, r.header, env.raw⟩] }
  match h.client.forward net r.path r.header env.raw with
  | .error e => h.handleUpstreamError env e x
  | .ok resp => writeUpstreamResponse resp (h.record (.request .allowed resp.status) x)

def deny (h : Handler) (env : Envelope) (x : Exchange) : Exchange :=
  let reply := h.denyBody env
  let x := h.record (.request .denied 403) x
  writeJson 403 reply.1 (reply.2.foldl (fun x m => h.record (.deniedMethod m) x) x)

/-- `ServeHTTP` up to its deferred observation. -/
def serve (h : Handler) (net : Net) (r : Request) (x : Exchange) : Exchange :=
  match h.readBody r with
  | .error e => h.handleReadError e x
  | .ok body =>
    match RpcRequests.parse body with
    | none => h.reject 400 (simpleError .parseError malformedMsg) x
    | some env => if h.anyDenied env then h.deny env x else h.forward net r env x

def serveHTTP (h : Handler) (net : Net) (r : Request) : Exchange :=
  h.record .duration (h.serve net r {})

end Handler

end BitcoinRpcOperator.ProxyHandler
