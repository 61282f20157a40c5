import BitcoinRpcOperator.MockNode
import BitcoinRpcOperator.PathCleaning
import BitcoinRpcOperator.PathForwarding
import BitcoinRpcOperator.RequestMetrics

/-!
# The proxy put together

`New` of `internal/app`, the routers and the middleware of `internal/server`. Two listeners share
the handlers: clients reach the filter and the health probes, the operator the health probes and
the metrics. Over runs of requests and polls: what reaches the node, and what is answered.
-/

namespace BitcoinRpcOperator.ProxyRouting
open Text JsonText UrlText RpcRequests ProxyHandler ProxyHandler.Handler ProxyConfiguration
open HealthPolling RequestMetrics MockNode

/-- A request as a listener reads it. -/
structure Incoming where
  method : Str
  /-- The request line asks for `*`. -/
  asterisk : Bool
  /-- `EscapedPath` and `Path` of its URL. -/
  escaped : Bytes
  path : Bytes
  decodes : unescape escaped = some path
  header : InboundHeader
  body : Bytes
  interrupted : Bool

inductive Endpoint where
  | rpc | health | probe | metrics
  deriving DecidableEq, Repr

/-- A pattern of a `ServeMux`, without wildcards; one that ends in a slash stands for a subtree. -/
structure Route where
  method : Str
  path : Bytes
  endpoint : Endpoint

def newMux : List Route :=
  [⟨"POST".toList, utf8 "/".toList, .rpc⟩, ⟨"GET".toList, utf8 "/health".toList, .health⟩,
    ⟨"GET".toList, utf8 "/healthz".toList, .probe⟩]

def newAdminMux : List Route :=
  [⟨"GET".toList, utf8 "/health".toList, .health⟩, ⟨"GET".toList, utf8 "/healthz".toList, .probe⟩,
    ⟨"GET".toList, utf8 "/metrics".toList, .metrics⟩]

/-- A pattern with `GET` also takes `HEAD`. -/
def Route.takesMethod (route : Route) (method : Str) : Bool :=
  route.method == method || route.method == "GET".toList && method == "HEAD".toList

/-- The root stands for all paths. Any other path is compared segment by segment, each of them
decoded. -/
def Route.takesPath (route : Route) (escaped path : Bytes) : Bool :=
  if route.path = utf8 "/".toList then escaped.head? == some (byte '/')
  else route.path == path && route.path.count (byte '/') == escaped.count (byte '/')

/-- The path, or the path with a slash behind it. -/
def Route.knowsPath (route : Route) (escaped path : Bytes) : Bool :=
  route.takesPath escaped path || escaped.getLast? != some (byte '/') &&
    route.takesPath (escaped ++ [byte '/']) (path ++ [byte '/'])

def cleanPath (path : Bytes) : Bytes := PathCleaning.clean (byte '/') (byte '.') path

/-- What a `ServeMux` makes of a request. -/
inductive Routed where
  | found (endpoint : Endpoint)
  | redirect (path : Bytes)
  | refused (status : ℕ)
  deriving DecidableEq, Repr

/-- Where a request goes; the patterns of one router exclude each other. -/
def serveMux (routes : List Route) (r : Incoming) : Routed :=
  if r.asterisk then .refused 400
  else if r.method ≠ "CONNECT".toList ∧ cleanPath r.escaped ≠ r.escaped then .redirect (cleanPath r.escaped)
  else
    match routes.find? fun route => route.takesMethod r.method && route.takesPath r.escaped r.path with
    | some route => .found route.endpoint
    | none => .refused (if routes.any (·.knowsPath r.escaped r.path) then 405 else 404)

inductive Reply where
  | written (w : Written)
  /-- The metrics and the gauge as they stand. -/
  | scraped (metrics : Metrics) (up : Bool)
  | redirected (path : Bytes)
  /-- By the router itself. -/
  | refused (status : ℕ)

def internalErrorText : Str :=
  "\x7b\"result\":null,\"error\":\x7b\"code\":-32603,\"message\":\"internal error\"\x7d,\"id\":null\x7d".toList

def panicRecovery (x : Exchange) : List Reply :=
  x.written.map .written ++ if x.panicked then [.written ⟨500, jsonContentType, utf8 internalErrorText⟩] else []

/-- `ServeHTTP` of `ProbeHandler`. -/
def serveProbe : Written := ⟨200, "text/plain".toList, utf8 "ok".toList⟩

structure App where
  rpc : Handler
  poller : Poller
  version : Str

/-- `New`; what `http.NewRequest` says about the address is `urlError`. -/
def newApp (cfg : ProxyConfig) (version urlError : Str) : App :=
  let client := (⟨utf8 cfg.upstreamUrl, []⟩ : Client)
  { rpc :=
      { allow := newAllowlist cfg.extendAllowlist
        client := client.setUpstreamAuth cfg.upstreamUser cfg.upstreamPassword
        maxBody := cfg.maxBodyBytes.toNat
        filter := cfg.filter
        recording := true }
    poller := proxyPoller client cfg.upstreamUser cfg.upstreamPassword urlError
    version }

inductive Listener where
  | main | admin
  deriving DecidableEq, Repr

def Listener.routes : Listener → List Route
  | .main => newMux
  | .admin => newAdminMux

structure State where
  health : Option Health := none
  metrics : Metrics := newMetrics
  /-- What went out to the node. -/
  upstream : List HttpRequest := []
  replies : List Reply := []

def State.reply (s : State) (reply : Reply) : State := { s with replies := s.replies ++ [reply] }

/-- What a call of `Forward` puts on the network. -/
def delivered (client : Client) (net : Net) (f : Forwarded) : List HttpRequest :=
  if net.accepts (client.baseUrl ++ f.path) then [client.upstreamRequest f.path f.header f.body] else []

namespace App
variable (app : App)

def exchange (net : Net) (r : Incoming) : Exchange :=
  app.rpc.serveHTTP net ⟨r.path, r.header.entries, r.body, r.interrupted⟩

def serveEndpoint (s : State) (net : Net) (r : Incoming) : Endpoint → State
  | .rpc =>
    let x := app.exchange net r
    { s with
      metrics := x.recorded.foldl Metrics.take s.metrics
      upstream := s.upstream ++ x.forwarded.flatMap (delivered app.rpc.client net)
      replies := s.replies ++ panicRecovery x }
  | .health => s.reply (.written (serveHealth app.poller.urlError app.version s.health))
  | .probe => s.reply (.written serveProbe)
  | .metrics => s.reply (.scraped s.metrics (isHealthy s.health))

def serve (s : State) (listener : Listener) (net : Net) (r : Incoming) : State :=
  match serveMux listener.routes r with
  | .found endpoint => app.serveEndpoint s net r endpoint
  | .redirect path => s.reply (.redirected path)
  | .refused status => s.reply (.refused status)

/-- The call of `Forward` that a poll makes. -/
def probe : Forwarded := ⟨healthCheckPath, app.poller.probeHeader, getblockcountBody⟩

end App

/-- A request to a listener, or a poll, and the network it meets. -/
inductive Label where
  | request (listener : Listener) (net : Net) (r : Incoming)
  | poll (net : Net)

def step (app : App) (s : State) : Label → State
  | .request listener net r => app.serve s listener net r
  | .poll net =>
    { s with
      health := some (app.poller.poll net)
      upstream := s.upstream ++ delivered app.poller.client net app.probe }

def run (app : App) (s : State) (ls : List Label) : State := ls.foldl (step app) s

theorem isClean_iff (path : Bytes) :
    PathForwarding.IsClean path ↔ PathCleaning.IsClean (byte '/') (byte '.') path := by
  have hdot : utf8 ".".toList = [byte '.'] := by decide
  have hdots : utf8 "..".toList = [byte '.', byte '.'] := by decide
  rw [PathForwarding.IsClean, hdot, hdots]
  rfl

theorem rpc_route {listener : Listener} {route : Route} (hmem : route ∈ listener.routes)
    (hrpc : route.endpoint = .rpc) : listener = .main ∧ route.method = "POST".toList := by
  cases listener with
  | main =>
    simp only [Listener.routes, newMux, List.mem_cons, List.not_mem_nil, or_false] at hmem
    rcases hmem with rfl | rfl | rfl
    · exact ⟨rfl, rfl⟩
    · cases hrpc
    · cases hrpc
  | admin =>
    simp only [Listener.routes, newAdminMux, List.mem_cons, List.not_mem_nil, or_false] at hmem
    rcases hmem with rfl | rfl | rfl <;> cases hrpc

/-- The routers take nothing to the filter but what is posted to a clean path of the public
listener. -/
theorem serveMux_rpc {listener : Listener} {r : Incoming} (h : serveMux listener.routes r = .found .rpc) :
    listener = .main ∧ r.method = "POST".toList ∧ PathForwarding.IsClean r.escaped := by
  have hnotGet : ("POST".toList == "GET".toList) = false := by decide
  rw [serveMux] at h
  by_cases hasterisk : r.asterisk = true
  · rw [if_pos hasterisk] at h
    cases h
  rw [if_neg hasterisk] at h
  by_cases hunclean : r.method ≠ "CONNECT".toList ∧ cleanPath r.escaped ≠ r.escaped
  · rw [if_pos hunclean] at h
    cases h
  rw [if_neg hunclean] at h
  cases hfind : listener.routes.find? fun route =>
      route.takesMethod r.method && route.takesPath r.escaped r.path with
  | none =>
    rw [hfind] at h
    cases h
  | some route =>
    rw [hfind] at h
    obtain ⟨hlistener, hmethod⟩ := rpc_route (List.mem_of_find?_eq_some hfind) (Routed.found.inj h)
    have htakes := List.find?_some hfind
    have hpost : r.method = "POST".toList := by
      rw [Bool.and_eq_true, Route.takesMethod, hmethod, hnotGet, Bool.false_and, Bool.or_false,
        beq_iff_eq] at htakes
      exact htakes.1.symm
    refine ⟨hlistener, hpost, (isClean_iff _).2 ((PathCleaning.clean_eq_self_iff _).1 ?_)⟩
    exact not_not.1 fun hne => hunclean ⟨by rw [hpost]; decide, hne⟩

/-- A request goes out for one that is posted to a clean path, with the same body and, as far as
they are passed on, its headers, and the allowlist has the method of each call that the filter
reads in it. -/
structure PassedOn (app : App) (r : Incoming) (out : HttpRequest) : Prop where
  method : r.method = "POST".toList
  clean : PathForwarding.IsClean r.escaped
  url : out.url = app.rpc.client.baseUrl ++ r.path
  headers : PassesHeaders app.rpc.client r.header.entries out.header
  body : out.body = r.body
  calls : ∃ env, RpcRequests.parse r.body = some env ∧
    ∀ call ∈ env.calls, call.method ≠ [] ∧ call.method ∈ app.rpc.allow.allowed

/-- What goes out for a request or a poll. -/
def Sends (app : App) : Label → HttpRequest → Prop
  | .request listener _ r, out => listener = .main ∧ PassedOn app r out
  | .poll _, out =>
    out = app.poller.client.upstreamRequest healthCheckPath app.poller.probeHeader getblockcountBody

/-- What a request or a poll sends to the node. -/
def sent (app : App) : Label → List HttpRequest
  | .request listener net r =>
    if serveMux listener.routes r = .found .rpc then
      (app.exchange net r).forwarded.flatMap (delivered app.rpc.client net)
    else []
  | .poll net => delivered app.poller.client net app.probe

section
variable {app : App} {s : State} {ls : List Label}

theorem step_upstream (l : Label) : (step app s l).upstream = s.upstream ++ sent app l := by
  cases l with
  | poll net => rfl
  | request listener net r =>
    rw [step, App.serve, sent]
    cases hrouted : serveMux listener.routes r with
    | redirect path => simp [State.reply]
    | refused status => simp [State.reply]
    | found endpoint =>
      cases endpoint with
      | rpc => simp [App.serveEndpoint]
      | health | probe | metrics => simp [App.serveEndpoint, State.reply]

theorem run_upstream : (run app s ls).upstream = s.upstream ++ ls.flatMap (sent app) := by
  induction ls generalizing s with
  | nil => simp [run]
  | cons l ls ih =>
    have hrest : (run app (step app s l) ls).upstream = (step app s l).upstream ++ ls.flatMap (sent app) := ih
    rw [List.flatMap_cons, ← List.append_assoc, ← step_upstream]
    exact hrest

theorem delivered_cases (client : Client) (net : Net) (f : Forwarded) : delivered client net f = [] ∨
    delivered client net f = [client.upstreamRequest f.path f.header f.body] := by
  rw [delivered]
  split_ifs
  · exact .inr rfl
  · exact .inl rfl

/-- A request or a poll sends one thing on at most. -/
theorem sent_cases (hfilter : app.rpc.filter = true) (l : Label) :
    sent app l = [] ∨ ∃ out, sent app l = [out] ∧ Sends app l out := by
  cases l with
  | poll net =>
    rcases delivered_cases app.poller.client net app.probe with hnone | hone
    · exact .inl hnone
    · exact .inr ⟨_, hone, rfl⟩
  | request listener net r =>
    rw [sent]
    split_ifs with hrouted
    · obtain ⟨hlistener, hpost, hclean⟩ := serveMux_rpc hrouted
      rcases forwarded_cases app.rpc net ⟨r.path, r.header.entries, r.body, r.interrupted⟩ with
        hnone | ⟨env, hparse, hdenied, hforwarded, -⟩
      · left
        rw [App.exchange, hnone, List.flatMap_nil]
      · rw [App.exchange, hforwarded, List.flatMap_singleton]
        rcases delivered_cases app.rpc.client net ⟨r.path, r.header.entries, r.body⟩ with hnone | hone
        · exact .inl hnone
        · exact .inr ⟨_, hone, hlistener, hpost, hclean, rfl,
            upstreamRequest_passesHeaders app.rpc.client r.path r.header r.body, rfl, env, hparse,
            permitted_calls hfilter hdenied⟩
    · exact .inl rfl

theorem mem_upstream (hfilter : app.rpc.filter = true) {out : HttpRequest}
    (h : out ∈ (run app {} ls).upstream) : ∃ l ∈ ls, Sends app l out := by
  have hrun : (run app {} ls).upstream = ls.flatMap (sent app) := run_upstream
  rw [hrun, List.mem_flatMap] at h
  obtain ⟨l, hl, hout⟩ := h
  rcases sent_cases hfilter l with hnone | ⟨g, hone, hsends⟩
  · rw [hnone] at hout
    cases hout
  · rw [hone, List.mem_singleton] at hout
    exact ⟨l, hl, hout ▸ hsends⟩

/-- With the filter on, nothing reaches the node in any run but what its requests and polls send
on, each of them one thing at most and in their order: polls the probe, and requests to the public
listener their body, when all their calls are in the allowlist. -/
theorem run_exposure (hfilter : app.rpc.filter = true) (ls : List Label) :
    ∃ senders, senders.Sublist ls ∧ List.Forall₂ (Sends app) senders (run app {} ls).upstream := by
  have hrun : (run app {} ls).upstream = ls.flatMap (sent app) := run_upstream
  rw [hrun]
  induction ls with
  | nil => exact ⟨[], .slnil, .nil⟩
  | cons l ls ih =>
    obtain ⟨senders, hsub, hall⟩ := ih run_upstream
    rw [List.flatMap_cons]
    rcases sent_cases hfilter l with hnone | ⟨f, hone, hsends⟩
    · rw [hnone]
      exact ⟨senders, hsub.cons l, hall⟩
    · rw [hone]
      exact ⟨l :: senders, hsub.cons_cons l, .cons hsends hall⟩

end

def sampleConfig : ProxyConfig where
  listen := ":8332".toList
  adminListen := "127.0.0.1:9090".toList
  logLevel := "info".toList
  upstreamUrl := "http://127.0.0.1:8331".toList
  upstreamTimeout := 30 * 10 ^ 9
  upstreamUser := "alice".toList
  upstreamPassword := "abc".toList
  maxBodyBytes := 1024
  extendAllowlist := []
  filter := true

def sampleApp : App := newApp sampleConfig "1.0".toList []

theorem root_decodes : unescape (utf8 "/".toList) = some (utf8 "/".toList) := by decide

theorem noFields_distinct : (([] : Header).map (·.1)).Nodup := List.nodup_nil

theorem noFields_canonical : ∀ e ∈ ([] : Header), canonicalHeaderKey e.1 = e.1 := nofun

def posted (body : Str) : Incoming :=
  { method := "POST".toList
    asterisk := false
    escaped := utf8 "/".toList
    path := utf8 "/".toList
    decodes := root_decodes
    header := ⟨[], noFields_distinct, noFields_canonical⟩
    body := utf8 body
    interrupted := false }

/-- An allowed call between two polls, and one to the wrong listener. -/
def sampleTraffic : List Label :=
  let uptime := posted "\x7b\"method\":\"uptime\"\x7d".toList
  [.poll unreachableNet, .request .main answeringNet uptime, .request .admin answeringNet uptime,
    .poll answeringNet]

theorem run_exposure_sampleTraffic : ∃ senders, senders.Sublist sampleTraffic ∧
    List.Forall₂ (Sends sampleApp) senders (run sampleApp {} sampleTraffic).upstream :=
  run_exposure rfl sampleTraffic

example : (run sampleApp {} sampleTraffic).upstream.length = 3 := by decide +kernel

/-- An exchange just before its one response is written. -/
structure Poised (x : Exchange) : Prop where
  unwritten : x.written = []
  calm : x.panicked = false
  request : (requestLabels x.recorded).length = 1
  duration : x.recorded.count .duration = 0

section
variable {h : Handler}

theorem record_panicked (r : Record) (x : Exchange) : (h.record r x).panicked = x.panicked := by
  unfold record
  split <;> rfl

theorem record_denied_panicked (ms : List Str) (x : Exchange) :
    (ms.foldl (fun x m => h.record (.deniedMethod m) x) x).panicked = x.panicked := by
  induction ms generalizing x with
  | nil => rfl
  | cons m ms ih => rw [List.foldl_cons, ih, record_panicked]

/-- The request is recorded before the response is written. -/
theorem poised_record (hrec : h.recording = true) (decision : Decision) (status : ℕ) {x : Exchange}
    (hwritten : x.written = []) (hcalm : x.panicked = false) (hrecorded : x.recorded = []) :
    Poised (h.record (.request decision status) x) where
  unwritten := by rw [RequestOutcomes.record_written, hwritten]
  calm := by rw [record_panicked, hcalm]
  request := by
    rw [record_recorded hrec, hrecorded]
    rfl
  duration := by
    rw [record_recorded hrec, hrecorded]
    rfl

theorem Poised.denied (hrec : h.recording = true) {x : Exchange} (hx : Poised x) (ms : List Str) :
    Poised (ms.foldl (fun x m => h.record (.deniedMethod m) x) x) where
  unwritten := by rw [(RequestOutcomes.record_denied h ms x).1, hx.unwritten]
  calm := by rw [record_denied_panicked, hx.calm]
  request := by
    have hnone : requestLabels (ms.map .deniedMethod) = [] := by
      rw [requestLabels, List.filterMap_map]
      exact List.filterMap_eq_nil_iff.2 fun m _ => rfl
    rw [record_denied_recorded hrec, requestLabels_append, hnone, List.append_nil, hx.request]
  duration := by
    have hnone : (ms.map Record.deniedMethod).count .duration = 0 := by
      rw [List.count_eq_zero]
      intro hmem
      obtain ⟨m, -, hm⟩ := List.mem_map.1 hmem
      cases hm
    rw [record_denied_recorded hrec, List.count_append, hnone, hx.duration]

/-- An exchange that ends with one write. -/
def WritesOnce (x : Exchange) : Prop :=
  ∃ status contentType body before, x = write status contentType body before ∧ Poised before

theorem reject_writesOnce (hrec : h.recording = true) (status : ℕ) (body : Json) :
    WritesOnce (h.reject status body {}) :=
  ⟨_, _, _, _, rfl, poised_record hrec .denied status rfl rfl rfl⟩

theorem deny_writesOnce (hrec : h.recording = true) (env : Envelope) : WritesOnce (h.deny env {}) := by
  have hstart : Poised (h.record (.request .denied 403) {}) := poised_record hrec .denied 403 rfl rfl rfl
  unfold deny
  exact ⟨403, jsonContentType, marshal (h.denyBody env).1, _, rfl, hstart.denied hrec (h.denyBody env).2⟩

theorem forward_writesOnce (hrec : h.recording = true) (net : Net) (r : Request) (env : Envelope) :
    WritesOnce (h.forward net r env {}) := by
  have hstart : ∀ status, Poised (h.record (.request .allowed status)
      { forwarded := [] ++ [⟨r.path, r.header, env.raw⟩] }) :=
    fun status => poised_record hrec .allowed status rfl rfl rfl
  unfold forward
  cases h.client.forward net r.path r.header env.raw with
  | error e => exact ⟨_, _, _, _, rfl, hstart _⟩
  | ok resp => exact ⟨_, _, _, _, rfl, hstart _⟩

theorem serve_writesOnce (hrec : h.recording = true) (net : Net) (r : Request) :
    WritesOnce (h.serve net r {}) := by
  unfold serve
  cases h.readBody r with
  | error e => cases e <;> exact reject_writesOnce hrec _ _
  | ok body =>
    cases hparse : RpcRequests.parse body with
    | none =>
      simp only [hparse]
      exact reject_writesOnce hrec _ _
    | some env =>
      simp only [hparse]
      split_ifs
      · exact deny_writesOnce hrec env
      · exact forward_writesOnce hrec net r env

/-- One reply comes of every exchange, also of one that panics, and it is counted once. -/
theorem serveHTTP_once (hrec : h.recording = true) (net : Net) (r : Request) :
    (panicRecovery (h.serveHTTP net r)).length = 1 ∧
      (requestLabels (h.serveHTTP net r).recorded).length = 1 ∧
      (h.serveHTTP net r).recorded.count .duration = 1 := by
  obtain ⟨status, contentType, body, x, hserve, hx⟩ := @serve_writesOnce h hrec net r
  rw [serveHTTP, hserve]
  refine ⟨?_, ?_, ?_⟩
  · rw [panicRecovery, RequestOutcomes.record_written, record_panicked]
    by_cases hstatus : 100 ≤ status ∧ status ≤ 999
    · rw [write, if_pos hstatus, hx.unwritten, if_neg (Bool.eq_false_iff.1 hx.calm)]
      rfl
    · rw [write, if_neg hstatus, hx.unwritten, if_pos rfl]
      rfl
  · rw [record_recorded hrec, write_recorded, requestLabels_append, List.length_append, hx.request]
    rfl
  · rw [record_recorded hrec, write_recorded, List.count_append, hx.duration]
    rfl

end

/-- A request, to either listener. -/
def Label.isRequest : Label → Bool
  | .request _ _ _ => true
  | .poll _ => false

def Label.isFiltered : Label → Bool
  | .request listener _ r => serveMux listener.routes r == .found .rpc
  | .poll _ => false

/-- What a run has answered and counted. -/
structure Tally (s : State) (replies counted : ℕ) : Prop where
  replies : s.replies.length = replies
  requests : s.metrics.requests.total = counted
  observations : s.metrics.observations = counted

section
variable {app : App} {s : State} {n k : ℕ}

theorem observations_foldl (rs : List Record) (m : Metrics) :
    (rs.foldl Metrics.take m).observations = m.observations + rs.count .duration := by
  induction rs generalizing m with
  | nil => rfl
  | cons r rs ih =>
    rw [List.foldl_cons, ih, List.count_cons]
    cases r with
    | request decision status => rfl
    | deniedMethod method => rfl
    | duration =>
      change m.observations + 1 + _ = m.observations + (_ + 1)
      omega

theorem Tally.reply (h : Tally s n k) (reply : Reply) : Tally (s.reply reply) (n + 1) k where
  replies := by rw [State.reply, List.length_append, h.replies, List.length_singleton]
  requests := h.requests
  observations := h.observations

theorem Tally.filtered (hrec : app.rpc.recording = true) (h : Tally s n k) (net : Net) (r : Incoming) :
    Tally (app.serveEndpoint s net r .rpc) (n + 1) (k + 1) := by
  obtain ⟨hreply, hrequest, hduration⟩ :=
    serveHTTP_once hrec net ⟨r.path, r.header.entries, r.body, r.interrupted⟩
  refine ⟨?_, ?_, ?_⟩
  · rw [App.serveEndpoint, List.length_append, h.replies, App.exchange, hreply]
  · rw [App.serveEndpoint, (foldl_take _ _).1, Dictionaries.Counter.total_incAll, h.requests, App.exchange,
      hrequest]
  · rw [App.serveEndpoint, observations_foldl, h.observations, App.exchange, hduration]

theorem tally_step (hrec : app.rpc.recording = true) (h : Tally s n k) (l : Label) :
    Tally (step app s l) (n + if l.isRequest then 1 else 0) (k + if l.isFiltered then 1 else 0) := by
  cases l with
  | poll net => exact ⟨h.replies, h.requests, h.observations⟩
  | request listener net r =>
    rw [step, App.serve, Label.isRequest, Label.isFiltered]
    cases hrouted : serveMux listener.routes r with
    | redirect path => exact h.reply _
    | refused status => exact h.reply _
    | found endpoint =>
      cases endpoint with
      | rpc => exact h.filtered hrec net r
      | health | probe | metrics => exact h.reply _

/-- Every request of a run, to either listener, gets one reply, whatever the node answers; the
counters count those that are routed to the filter, once each, and nothing else. -/
theorem run_answered (hrec : app.rpc.recording = true) (ls : List Label) :
    Tally (run app {} ls) (ls.countP Label.isRequest) (ls.countP Label.isFiltered) := by
  have hfrom : ∀ {s n k}, Tally s n k →
      Tally (run app s ls) (n + ls.countP Label.isRequest) (k + ls.countP Label.isFiltered) := by
    induction ls with
    | nil => exact fun h => h
    | cons l ls ih =>
      intro s n k h
      have hrest := ih (tally_step hrec h l)
      rw [List.countP_cons, List.countP_cons, Nat.add_comm (ls.countP _), Nat.add_comm (ls.countP _),
        ← Nat.add_assoc, ← Nat.add_assoc]
      exact hrest
  have hrun := hfrom (⟨rfl, rfl, rfl⟩ : Tally {} 0 0)
  rw [Nat.zero_add, Nat.zero_add] at hrun
  exact hrun

end

theorem run_answered_sampleTraffic : Tally (run sampleApp {} sampleTraffic)
    (sampleTraffic.countP Label.isRequest) (sampleTraffic.countP Label.isFiltered) :=
  run_answered rfl sampleTraffic

end BitcoinRpcOperator.ProxyRouting
