import BitcoinRpcOperator.ProxyHandler

/-!
# What becomes of a request

Every request ends in one of five ways: too large, malformed, denied, answered by the
upstream, or failed there.
-/

namespace BitcoinRpcOperator.RequestOutcomes
open Text JsonText RpcRequests ProxyHandler ProxyHandler.Handler

section
variable (h : Handler) (r : Record) (x : Exchange)

@[simp] theorem record_written : (h.record r x).written = x.written := by
  unfold record
  split <;> rfl

@[simp] theorem record_forwarded : (h.record r x).forwarded = x.forwarded := by
  unfold record
  split <;> rfl

end

@[simp] theorem write_forwarded (status : ℕ) (contentType : Str) (body : Bytes) (x : Exchange) :
    (write status contentType body x).forwarded = x.forwarded := by
  unfold write
  split <;> rfl

theorem write_written {status : ℕ} (hlo : 100 ≤ status) (hhi : status ≤ 999) (contentType : Str)
    (body : Bytes) (x : Exchange) :
    (write status contentType body x).written = x.written ++ [⟨status, contentType, body⟩] := by
  rw [write, if_pos ⟨hlo, hhi⟩]

theorem write_panicked {status : ℕ} (hlo : status < 100) (contentType : Str) (body : Bytes)
    (x : Exchange) : (write status contentType body x).written = x.written := by
  rw [write, if_neg (by omega)]

/-- Recording the denied methods. -/
theorem record_denied (h : Handler) (ms : List Str) (x : Exchange) :
    (ms.foldl (fun x m => h.record (.deniedMethod m) x) x).written = x.written ∧
      (ms.foldl (fun x m => h.record (.deniedMethod m) x) x).forwarded = x.forwarded := by
  induction ms generalizing x with
  | nil => exact ⟨rfl, rfl⟩
  | cons m ms ih =>
    obtain ⟨hw, hf⟩ := ih (h.record (.deniedMethod m) x)
    rw [record_written] at hw
    rw [record_forwarded] at hf
    exact ⟨hw, hf⟩

/-- Nothing was forwarded, and one response with this status was written. -/
def Rejected (status : ℕ) (x : Exchange) : Prop :=
  x.forwarded = [] ∧ ∃ contentType body, x.written = [⟨status, contentType, body⟩]

theorem Rejected.status_eq {s t : ℕ} {x : Exchange} (h : Rejected s x) (h' : Rejected t x) :
    s = t := by
  obtain ⟨-, _, _, hs⟩ := h
  obtain ⟨-, _, _, ht⟩ := h'
  rw [hs] at ht
  exact congrArg Written.status (List.cons.inj ht).1

theorem reject_rejected (h : Handler) {status : ℕ} (hlo : 100 ≤ status) (hhi : status ≤ 999)
    (body : Json) : Rejected status (h.reject status body {}) := by
  refine ⟨?_, jsonContentType, marshal body, ?_⟩
  · rw [reject, writeJson, write_forwarded, record_forwarded]
  · rw [reject, writeJson, write_written hlo hhi, record_written]
    rfl

theorem deny_rejected (h : Handler) (env : Envelope) : Rejected 403 (h.deny env {}) := by
  obtain ⟨hw, hf⟩ := record_denied h (h.denyBody env).2 (h.record (.request .denied 403) {})
  refine ⟨?_, jsonContentType, marshal (h.denyBody env).1, ?_⟩
  · rw [deny, writeJson, write_forwarded, hf, record_forwarded]
  · rw [deny, writeJson, write_written (by omega) (by omega), hw, record_written]
    rfl

/-- Whether an exchange with the upstream failed by a timeout. -/
def isTimeout (e : NetFailure) : Bool := e.deadlineExceeded || e.netError == some true

theorem classifyUpstreamError_timeout (e : NetFailure) :
    classifyUpstreamError e = .timeout ↔ isTimeout e = true := by
  obtain ⟨deadline, netError⟩ := e
  cases deadline <;> cases netError with
  | none => decide
  | some timeout => cases timeout <;> decide

/-- What the upstream made of a request. -/
inductive UpstreamOutcome where
  | answered (status : ℕ) (body : Bytes)
  | timedOut
  | failed
  deriving DecidableEq, Repr

def failureOutcome (e : NetFailure) : UpstreamOutcome := if isTimeout e then .timedOut else .failed

def upstreamOutcome (c : Client) (net : Net) (r : Request) : UpstreamOutcome :=
  if net.accepts (c.baseUrl ++ r.path) then
    match net.send (c.upstreamRequest r.path r.header r.body) with
    | .error e => failureOutcome e
    | .ok answer =>
      match answer.body with
      | .error e => failureOutcome e
      | .ok body => .answered answer.status body
  else .failed

/-- The response a client should see for each outcome. -/
def Relays : UpstreamOutcome → Exchange → Prop
  | .answered status body, x => ∃ contentType, x.written = [⟨status, contentType, body⟩]
  | .timedOut, x => ∃ contentType body, x.written = [⟨504, contentType, body⟩]
  | .failed, x => ∃ contentType body, x.written = [⟨502, contentType, body⟩]

/-- The upstream times out on the body of its answer, or its status is below 100. -/
def BadAnswer (c : Client) (net : Net) (r : Request) : Prop :=
  net.accepts (c.baseUrl ++ r.path) = true ∧
    ∃ answer, net.send (c.upstreamRequest r.path r.header r.body) = .ok answer ∧
      ((∃ e, answer.body = .error e ∧ isTimeout e = true) ∨
        (∃ body, answer.body = .ok body ∧ answer.status < 100))

theorem writeUpstreamResponse_written (resp : Response) (hlo : 100 ≤ resp.status)
    (hhi : resp.status ≤ 999) {x : Exchange} (hx : x.written = []) :
    ∃ contentType, (writeUpstreamResponse resp x).written =
      [⟨resp.status, contentType, resp.body⟩] := by
  rw [writeUpstreamResponse, write_written hlo hhi, hx]
  exact ⟨_, rfl⟩

theorem handleUpstreamError_written (h : Handler) (env : Envelope) (e : ForwardError) (x : Exchange)
    (hx : x.written = []) : ∃ body, (h.handleUpstreamError env e x).written =
      [⟨if e = .timeout then 504 else 502, jsonContentType, body⟩] := by
  refine ⟨marshal (envelopeErrorBody env .internalError
    (if e = .timeout then timeoutMsg else unavailableMsg)), ?_⟩
  have hlo : 100 ≤ if e = .timeout then 504 else 502 := by split <;> omega
  have hhi : (if e = .timeout then 504 else 502) ≤ 999 := by split <;> omega
  rw [handleUpstreamError, writeJson, write_written hlo hhi, record_written, hx]
  rfl

@[simp] theorem handleUpstreamError_forwarded (h : Handler) (env : Envelope) (e : ForwardError)
    (x : Exchange) : (h.handleUpstreamError env e x).forwarded = x.forwarded := by
  rw [handleUpstreamError, writeJson, write_forwarded, record_forwarded]

theorem forward_forwarded (h : Handler) (net : Net) (r : Request) (env : Envelope) :
    (h.forward net r env {}).forwarded = [⟨r.path, r.header, env.raw⟩] := by
  unfold forward
  cases h.client.forward net r.path r.header env.raw with
  | error e => exact handleUpstreamError_forwarded h env e _
  | ok resp => exact (write_forwarded _ _ _ _).trans (record_forwarded _ _ _)

/-- Forwarding relays the outcome exactly when the answer is not a bad one; one that is
has nothing or the wrong status written for it. -/
theorem forward_relays (h : Handler) (net : Net) (r : Request) {env : Envelope}
    (hraw : env.raw = r.body) :
    Relays (upstreamOutcome h.client net r) (h.forward net r env {}) ↔
      ¬ BadAnswer h.client net r := by
  unfold forward upstreamOutcome BadAnswer Client.forward
  rw [hraw]
  by_cases haccept : net.accepts (h.client.baseUrl ++ r.path) = true
  swap
  · simp only [haccept, Bool.false_eq_true, if_false, false_and, not_false_eq_true, iff_true]
    obtain ⟨body, hw⟩ := handleUpstreamError_written h env .badRequest
      { forwarded := [⟨r.path, r.header, r.body⟩] } rfl
    exact ⟨_, body, hw⟩
  simp only [haccept, if_true, true_and]
  cases hsend : net.send (h.client.upstreamRequest r.path r.header r.body) with
  | error e =>
    simp only [reduceCtorEq, false_and, exists_false, not_false_eq_true, iff_true]
    obtain ⟨body, hw⟩ := handleUpstreamError_written h env (classifyUpstreamError e)
      { forwarded := [⟨r.path, r.header, r.body⟩] } rfl
    rw [failureOutcome]
    split
    · rename_i htimeout
      rw [if_pos ((classifyUpstreamError_timeout e).2 htimeout)] at hw
      exact ⟨_, body, hw⟩
    · rename_i htimeout
      rw [if_neg (mt (classifyUpstreamError_timeout e).1 htimeout)] at hw
      exact ⟨_, body, hw⟩
  | ok answer =>
    simp only [Except.ok.injEq, exists_eq_left']
    cases hbody : answer.body with
    | error e =>
      obtain ⟨body, hw⟩ := handleUpstreamError_written h env .unavailable
        { forwarded := [⟨r.path, r.header, r.body⟩] } rfl
      rw [if_neg (by decide)] at hw
      simp only [Except.error.injEq, exists_eq_left', reduceCtorEq, false_and, exists_false,
        or_false]
      rw [failureOutcome]
      split
      · rename_i htimeout
        refine iff_of_false ?_ (fun hnot => hnot htimeout)
        rintro ⟨contentType, body', hw'⟩
        rw [List.nil_append, hw] at hw'
        exact absurd (congrArg Written.status (List.cons.inj hw').1) (by simp)
      · rename_i htimeout
        exact iff_of_true ⟨_, body, hw⟩ htimeout
    | ok body =>
      simp only [reduceCtorEq, false_and, exists_false, Except.ok.injEq, exists_eq_left', false_or]
      by_cases hstatus : answer.status < 100
      · refine iff_of_false ?_ (fun hnot => hnot hstatus)
        rintro ⟨contentType, hw⟩
        rw [writeUpstreamResponse, write_panicked hstatus, record_written] at hw
        cases hw
      · refine iff_of_true ?_ hstatus
        exact writeUpstreamResponse_written ⟨answer.status, answer.headers, body⟩
          (not_lt.1 hstatus) answer.digits (record_written _ _ _)

/-- The filter turns a request down. -/
def Denied (h : Handler) (env : Envelope) : Prop :=
  h.filter = true ∧ ∃ call ∈ env.calls, call.method = [] ∨ call.method ∉ h.allow.allowed

/-- The request is short enough, well formed and not denied. -/
def Admitted (h : Handler) (body : Bytes) : Prop :=
  ¬ h.maxBody < body.length ∧ ∃ env, RpcRequests.parse body = some env ∧ ¬ Denied h env

theorem anyDenied_iff (h : Handler) (env : Envelope) : h.anyDenied env = true ↔ Denied h env := by
  simp only [anyDenied, Denied, Bool.and_eq_true, List.any_eq_true, allowed, Allowlist.permits,
    Bool.not_eq_true', Bool.and_eq_false_iff, decide_eq_false_iff_not, ne_eq, not_not]

theorem parse_raw {body : Bytes} {env : Envelope} (h : RpcRequests.parse body = some env) :
    env.raw = body := by
  rw [RpcRequests.parse] at h
  obtain ⟨value, -, h⟩ := Option.bind_eq_some_iff.1 h
  cases value with
  | object _ | array _ =>
    cases h
    rfl
  | null | bool _ | number _ | string _ => cases h

/-- A request of path, header and body, all of it read. -/
def fullRequest (path : Bytes) (header : Header) (body : Bytes) : Request :=
  ⟨path, header, body, false⟩

section
variable {h : Handler} {net : Net} {path : Bytes} {header : Header} {body : Bytes}

theorem readBody_tooLarge (hlarge : h.maxBody < body.length) :
    h.readBody (fullRequest path header body) = .error .tooLarge := if_pos hlarge

theorem readBody_full (hlarge : ¬ h.maxBody < body.length) :
    h.readBody (fullRequest path header body) = .ok body := if_neg hlarge

theorem serveHTTP_tooLarge (hlarge : h.maxBody < body.length) :
    Rejected 413 (h.serveHTTP net (fullRequest path header body)) := by
  have hserve : h.serve net (fullRequest path header body) {} =
      h.reject 413 (simpleError .invalidRequest tooLargeMsg) {} := by
    rw [serve, readBody_tooLarge hlarge]
    rfl
  rw [serveHTTP, hserve, Rejected, record_forwarded, record_written]
  exact reject_rejected h (by omega) (by omega) _

theorem serve_of_parse (hlarge : ¬ h.maxBody < body.length) :
    h.serve net (fullRequest path header body) {} = match RpcRequests.parse body with
      | none => h.reject 400 (simpleError .parseError malformedMsg) {}
      | some env => if h.anyDenied env then h.deny env {}
        else h.forward net (fullRequest path header body) env {} := by
  cases hparse : RpcRequests.parse body <;> simp only [serve, readBody_full hlarge, hparse]

theorem serveHTTP_malformed (hlarge : ¬ h.maxBody < body.length)
    (hparse : RpcRequests.parse body = none) :
    Rejected 400 (h.serveHTTP net (fullRequest path header body)) := by
  rw [serveHTTP, serve_of_parse hlarge, hparse, Rejected, record_forwarded, record_written]
  exact reject_rejected h (by omega) (by omega) _

theorem serveHTTP_denied (hlarge : ¬ h.maxBody < body.length) {env : Envelope}
    (hparse : RpcRequests.parse body = some env) (hdenied : Denied h env) :
    Rejected 403 (h.serveHTTP net (fullRequest path header body)) := by
  rw [serveHTTP, serve_of_parse hlarge, hparse, Rejected, record_forwarded, record_written]
  simp only [(anyDenied_iff h env).2 hdenied, if_true]
  exact deny_rejected h env

/-- What is written and forwarded for a request that gets past the filter. -/
theorem serveHTTP_forwards (hlarge : ¬ h.maxBody < body.length) {env : Envelope}
    (hparse : RpcRequests.parse body = some env) (hdenied : ¬ Denied h env) :
    (h.serveHTTP net (fullRequest path header body)).forwarded = [⟨path, header, body⟩] ∧
      (h.serveHTTP net (fullRequest path header body)).written =
        (h.forward net (fullRequest path header body) env {}).written := by
  rw [serveHTTP, serve_of_parse hlarge, hparse, record_forwarded, record_written]
  simp only [mt (anyDenied_iff h env).1 hdenied, Bool.false_eq_true, if_false, and_true]
  rw [forward_forwarded, parse_raw hparse]
  rfl

end

/-- Nothing is forwarded unless the request was admitted. -/
theorem admitted_of_forwarded {h : Handler} {net : Net} {path : Bytes} {header : Header}
    {body : Bytes} (hf : (h.serveHTTP net (fullRequest path header body)).forwarded ≠ []) :
    Admitted h body := by
  by_cases hlarge : h.maxBody < body.length
  · exact absurd (serveHTTP_tooLarge hlarge).1 hf
  cases hparse : RpcRequests.parse body with
  | none => exact absurd (serveHTTP_malformed hlarge hparse).1 hf
  | some env =>
    by_cases hdenied : Denied h env
    · exact absurd (serveHTTP_denied hlarge hparse hdenied).1 hf
    · exact ⟨hlarge, env, hparse, hdenied⟩

/-- The outcome of a request, case by case. -/
structure Outcome (h : Handler) (net : Net) (path : Bytes) (header : Header) (body : Bytes)
    (x : Exchange) : Prop where
  once : x.written.length = 1
  tooLarge : Rejected 413 x ↔ h.maxBody < body.length
  malformed : ¬ h.maxBody < body.length → (Rejected 400 x ↔ RpcRequests.parse body = none)
  denied : ¬ h.maxBody < body.length → ∀ env, RpcRequests.parse body = some env →
    (Rejected 403 x ↔ Denied h env)
  forwarded : ¬ h.maxBody < body.length → ∀ env, RpcRequests.parse body = some env →
    ¬ Denied h env → x.forwarded = [⟨path, header, body⟩] ∧
      Relays (upstreamOutcome h.client net (fullRequest path header body)) x

theorem outcome_of_rejected {h : Handler} {net : Net} {path : Bytes} {header : Header} {body : Bytes}
    {x : Exchange} {status : ℕ} (hx : Rejected status x)
    (hlarge : status = 413 ↔ h.maxBody < body.length)
    (hmalformed : ¬ h.maxBody < body.length → (status = 400 ↔ RpcRequests.parse body = none))
    (hdenied : ¬ h.maxBody < body.length → ∀ env, RpcRequests.parse body = some env →
      (status = 403 ↔ Denied h env))
    (hadmitted : ¬ Admitted h body) : Outcome h net path header body x := by
  have hiff : ∀ t, Rejected t x ↔ status = t := fun t =>
    ⟨fun ht => hx.status_eq ht, fun ht => ht ▸ hx⟩
  obtain ⟨-, contentType, reply, hw⟩ := id hx
  refine ⟨by rw [hw]; rfl, (hiff _).trans hlarge, fun hl => (hiff _).trans (hmalformed hl),
    fun hl env hp => (hiff _).trans (hdenied hl env hp), fun hl env hp hd => ?_⟩
  exact absurd ⟨hl, env, hp, hd⟩ hadmitted

theorem Relays.once {o : UpstreamOutcome} {x : Exchange} (h : Relays o x) : x.written.length = 1 := by
  cases o with
  | answered status body =>
    obtain ⟨_, hw⟩ := h
    rw [hw]
    rfl
  | timedOut | failed =>
    obtain ⟨_, _, hw⟩ := h
    rw [hw]
    rfl

/-- An admitted request has the outcome it should exactly when it is relayed. -/
theorem outcome_of_admitted {h : Handler} {net : Net} {path : Bytes} {header : Header} {body : Bytes}
    {x : Exchange} (hadmitted : Admitted h body) (hx : x.forwarded = [⟨path, header, body⟩]) :
    Outcome h net path header body x ↔
      Relays (upstreamOutcome h.client net (fullRequest path header body)) x := by
  obtain ⟨hlarge, env, hparse, hdenied⟩ := hadmitted
  have hnot : ∀ status, ¬ Rejected status x := by
    rintro status ⟨hnone, -⟩
    rw [hx] at hnone
    cases hnone
  refine ⟨fun ho => (ho.forwarded hlarge env hparse hdenied).2, fun hr => ?_⟩
  refine ⟨hr.once, iff_of_false (hnot _) hlarge, fun _ => iff_of_false (hnot _) ?_, ?_, ?_⟩
  · rw [hparse]
    simp
  · intro _ env' hparse'
    rw [hparse] at hparse'
    cases hparse'
    exact iff_of_false (hnot _) hdenied
  · exact fun _ _ _ _ => ⟨hx, hr⟩

/-- A request read in full has the documented outcome exactly when it is not admitted or
the upstream does not answer badly. -/
theorem serveHTTP_outcome_iff (h : Handler) (net : Net) (path : Bytes) (header : Header)
    (body : Bytes) :
    Outcome h net path header body (h.serveHTTP net (fullRequest path header body)) ↔
      ¬ (Admitted h body ∧ BadAnswer h.client net (fullRequest path header body)) := by
  by_cases hlarge : h.maxBody < body.length
  · have hadmitted : ¬ Admitted h body := fun ha => ha.1 hlarge
    refine iff_of_true ?_ fun hbad => hadmitted hbad.1
    exact outcome_of_rejected (serveHTTP_tooLarge hlarge) (by simpa using hlarge)
      (fun hl => absurd hlarge hl) (fun hl => absurd hlarge hl) hadmitted
  cases hparse : RpcRequests.parse body with
  | none =>
    have hadmitted : ¬ Admitted h body := by
      rintro ⟨-, env, henv, -⟩
      rw [hparse] at henv
      cases henv
    refine iff_of_true ?_ fun hbad => hadmitted hbad.1
    refine outcome_of_rejected (serveHTTP_malformed hlarge hparse) (by simpa using hlarge)
      (fun _ => by simpa using hparse) (fun _ env henv => ?_) hadmitted
    rw [hparse] at henv
    cases henv
  | some env =>
    by_cases hdenied : Denied h env
    · have hadmitted : ¬ Admitted h body := by
        rintro ⟨-, env', henv', hnot⟩
        rw [hparse] at henv'
        cases henv'
        exact hnot hdenied
      refine iff_of_true ?_ fun hbad => hadmitted hbad.1
      refine outcome_of_rejected (serveHTTP_denied hlarge hparse hdenied) (by simpa using hlarge)
        (fun _ => by simp [hparse]) (fun _ env' henv' => ?_) hadmitted
      rw [hparse] at henv'
      cases henv'
      simpa using hdenied
    · have hadmitted : Admitted h body := ⟨hlarge, env, hparse, hdenied⟩
      have hserve : (h.serveHTTP net (fullRequest path header body)).forwarded =
          [⟨path, header, body⟩] ∧ (h.serveHTTP net (fullRequest path header body)).written =
          (h.forward net (fullRequest path header body) env {}).written :=
        serveHTTP_forwards hlarge hparse hdenied
      obtain ⟨hforwarded, hwritten⟩ := hserve
      rw [outcome_of_admitted hadmitted hforwarded]
      have hrelays : ∀ o, Relays o (h.serveHTTP net (fullRequest path header body)) ↔
          Relays o (h.forward net (fullRequest path header body) env {}) := by
        intro o
        cases o <;> simp only [Relays, hwritten]
      rw [hrelays, forward_relays h net (fullRequest path header body) (parse_raw hparse)]
      simp [hadmitted]

/-- The head of the answer arrives, and its body times out. -/
def stalling : Net where
  accepts _ := true
  send _ := .ok ⟨200, [], .error ⟨true, some true⟩, by omega, by omega⟩

def passThrough : Handler :=
  ⟨newAllowlist [], ⟨utf8 "http://127.0.0.1:8332".toList, []⟩, 1024, false, false⟩

/-- The client is told 502 where the upstream timed out. -/
theorem serveHTTP_stalled_answer : ¬ ∀ (h : Handler) (net : Net) (path : Bytes) (header : Header)
    (body : Bytes),
    Outcome h net path header body (h.serveHTTP net (fullRequest path header body)) := by
  intro hall
  refine (serveHTTP_outcome_iff passThrough stalling (utf8 "/".toList) []
    (utf8 "\x7b\x7d".toList)).1 (hall _ _ _ _ _) ⟨?_, rfl, _, rfl, .inl ⟨_, rfl, rfl⟩⟩
  refine ⟨by decide, ?_⟩
  have hparse : (RpcRequests.parse (utf8 "\x7b\x7d".toList)).isSome = true := by decide +kernel
  obtain ⟨env, henv⟩ := Option.isSome_iff_exists.1 hparse
  exact ⟨env, henv, fun hdenied => absurd hdenied.1 (by decide)⟩

end BitcoinRpcOperator.RequestOutcomes
