import BitcoinRpcOperator.Dictionaries
import BitcoinRpcOperator.RequestOutcomes

/-!
# What the metrics count

`internal/handler/metrics.go`, fed with what the handler tells its `Recorder`. The counters
are looked at over sequences of requests, each of which meets a network of its own.
-/

namespace BitcoinRpcOperator.RequestMetrics
open Text JsonText RpcRequests ProxyHandler ProxyHandler.Handler RequestOutcomes Dictionaries

/-- `strconv.Itoa`, for a status. -/
def itoa (n : ℕ) : Str := Nat.toDigits 10 n

def decisionText : Decision → Str
  | .allowed => "allowed".toList
  | .denied => "denied".toList

/-- `Metrics`, as far as requests change them; of the durations only the number is kept. -/
structure Metrics where
  /-- `btc_rpc_proxy_requests_total`, by decision and status. -/
  requests : Counter (Str × Str)
  /-- `btc_rpc_proxy_denied_method_total`, by method. -/
  denied : Counter Str
  observations : ℕ

def newMetrics : Metrics := ⟨.empty, .empty, 0⟩

namespace Metrics

def recordRequest (m : Metrics) (decision : Decision) (status : ℕ) : Metrics :=
  { m with requests := m.requests.inc (decisionText decision, itoa status) }

def recordDeniedMethod (m : Metrics) (method : Str) : Metrics :=
  { m with denied := m.denied.inc method }

def observeDuration (m : Metrics) : Metrics := { m with observations := m.observations + 1 }

/-- One call of the `Recorder`. -/
def take (m : Metrics) : Record → Metrics
  | .request decision status => m.recordRequest decision status
  | .deniedMethod method => m.recordDeniedMethod method
  | .duration => m.observeDuration

/-- The label combinations that both counters hold. -/
def series (m : Metrics) : ℕ := m.requests.size + m.denied.size

end Metrics

/-- A request and the network it meets. -/
structure Arrival where
  net : Net
  request : Request

def Arrival.served (a : Arrival) (h : Handler) : Exchange := h.serveHTTP a.net a.request

/-- The metrics after a sequence of requests. -/
def serveAll (h : Handler) (m : Metrics) (arrivals : List Arrival) : Metrics :=
  arrivals.foldl (fun m a => (a.served h).recorded.foldl Metrics.take m) m

/-- The combinations `recordRequest` is called with. -/
def requestLabels (rs : List Record) : List (Str × Str) :=
  rs.filterMap fun
    | .request decision status => some (decisionText decision, itoa status)
    | _ => none

/-- The methods `recordDeniedMethod` is called with. -/
def deniedLabels (rs : List Record) : List Str :=
  rs.filterMap fun
    | .deniedMethod method => some method
    | _ => none

theorem requestLabels_append (rs ss : List Record) :
    requestLabels (rs ++ ss) = requestLabels rs ++ requestLabels ss := List.filterMap_append

theorem deniedLabels_append (rs ss : List Record) :
    deniedLabels (rs ++ ss) = deniedLabels rs ++ deniedLabels ss := List.filterMap_append

theorem foldl_take (rs : List Record) (m : Metrics) :
    (rs.foldl Metrics.take m).requests = m.requests.incAll (requestLabels rs) ∧
      (rs.foldl Metrics.take m).denied = m.denied.incAll (deniedLabels rs) := by
  induction rs generalizing m with
  | nil => exact ⟨rfl, rfl⟩
  | cons r rs ih =>
    obtain ⟨hrequests, hdenied⟩ := ih (m.take r)
    cases r with
    | request decision status => exact ⟨hrequests, hdenied⟩
    | deniedMethod method => exact ⟨hrequests, hdenied⟩
    | duration => exact ⟨hrequests, hdenied⟩

theorem serveAll_counts (h : Handler) (arrivals : List Arrival) (m : Metrics) :
    (serveAll h m arrivals).requests = m.requests.incAll
        (arrivals.flatMap fun a => requestLabels (a.served h).recorded) ∧
      (serveAll h m arrivals).denied = m.denied.incAll
        (arrivals.flatMap fun a => deniedLabels (a.served h).recorded) := by
  induction arrivals generalizing m with
  | nil => exact ⟨rfl, rfl⟩
  | cons a arrivals ih =>
    obtain ⟨hrequests, hdenied⟩ := ih ((a.served h).recorded.foldl Metrics.take m)
    obtain ⟨hr, hd⟩ := foldl_take (a.served h).recorded m
    rw [List.flatMap_cons, List.flatMap_cons, Counter.incAll_append, Counter.incAll_append, ← hr,
      ← hd]
    exact ⟨hrequests, hdenied⟩

section
variable {h : Handler}

theorem record_recorded (hrec : h.recording = true) (r : Record) (x : Exchange) :
    (h.record r x).recorded = x.recorded ++ [r] := by rw [record, if_pos hrec]

@[simp] theorem write_recorded (status : ℕ) (contentType : Str) (body : Bytes) (x : Exchange) :
    (write status contentType body x).recorded = x.recorded := by
  unfold write
  split <;> rfl

theorem record_denied_recorded (hrec : h.recording = true) (ms : List Str) (x : Exchange) :
    (ms.foldl (fun x m => h.record (.deniedMethod m) x) x).recorded =
      x.recorded ++ ms.map .deniedMethod := by
  induction ms generalizing x with
  | nil => simp
  | cons m ms ih =>
    rw [List.foldl_cons, ih, record_recorded hrec, List.map_cons, List.append_assoc]
    rfl

theorem reject_recorded (hrec : h.recording = true) (status : ℕ) (body : Json) :
    (h.reject status body {}).recorded = [.request .denied status] := by
  rw [reject, writeJson, write_recorded, record_recorded hrec]
  rfl

theorem deny_recorded (hrec : h.recording = true) (env : Envelope) :
    (h.deny env {}).recorded =
      .request .denied 403 :: (h.denyBody env).2.map .deniedMethod := by
  rw [deny, writeJson, write_recorded, record_denied_recorded hrec, record_recorded hrec]
  rfl

end

/-- A call that policy does not allow. -/
def NotAllowed (h : Handler) (call : Call) : Prop :=
  call.method = [] ∨ call.method ∉ h.allow.allowed

instance (h : Handler) (call : Call) : Decidable (NotAllowed h call) :=
  inferInstanceAs (Decidable (_ ∨ _))

/-- The calls that policy refuses in a request: those it does not allow, when the request is
read whole, well formed and filtered. -/
def refusedCalls (h : Handler) (r : Request) : List Call :=
  if r.body.length ≤ h.maxBody ∧ r.interrupted = false ∧ h.filter = true then
    match RpcRequests.parse r.body with
    | some env => env.calls.filter fun call => NotAllowed h call
    | none => []
  else []

def responseLabels (x : Exchange) : List (Str × Str) :=
  x.written.map fun w =>
    (decisionText (if x.forwarded = [] then .denied else .allowed), itoa w.status)

/-- A request is accounted for: it is counted once, by the status that was written and
whether it was handed on, and its refused calls are counted when policy refused it. -/
structure Accounted (h : Handler) (r : Request) (x : Exchange) : Prop where
  once : x.written.length = 1
  request : requestLabels x.recorded = responseLabels x
  denied : deniedLabels x.recorded = (refusedCalls h r).map methodLabel
  policy : refusedCalls h r ≠ [] ↔ Rejected 403 x

/-- The statuses of the upstream's answers. -/
def StandardStatuses (net : Net) : Prop :=
  ∀ req answer, net.send req = .ok answer → 200 ≤ answer.status ∧ answer.status ≤ 599

section
variable {h : Handler} {net : Net} {r : Request}

theorem not_allowed_iff (call : Call) : (!h.allowed call) = true ↔ NotAllowed h call := by
  simp only [allowed, Allowlist.permits, NotAllowed, Bool.not_eq_true', Bool.and_eq_false_iff,
    decide_eq_false_iff_not, ne_eq, not_not]

theorem filter_not_allowed (calls : List Call) :
    (calls.filter fun call => NotAllowed h call) = calls.filter fun call => !h.allowed call := by
  apply List.filter_congr
  intro call _
  rw [Bool.eq_iff_iff, decide_eq_true_iff, not_allowed_iff]

theorem anyDenied_eq (env : Envelope) (hfilter : h.filter = true) :
    h.anyDenied env = true ↔ (env.calls.filter fun call => NotAllowed h call) ≠ [] := by
  rw [filter_not_allowed, anyDenied, hfilter, Bool.true_and, List.any_eq_true, ne_eq,
    List.filter_eq_nil_iff]
  push Not
  rfl

/-- The denied methods that are recorded are the labels of the calls policy does not allow. -/
theorem denyBody_labels {env : Envelope} (hdenied : h.anyDenied env = true) :
    (h.denyBody env).2 = (env.calls.filter fun call => NotAllowed h call).map methodLabel := by
  have hfilter : h.filter = true := (Bool.and_eq_true_iff.1 hdenied).1
  have hsome := (anyDenied_eq env hfilter).1 hdenied
  unfold denyBody
  split
  · rw [filter_not_allowed]
  · rename_i hbatch
    have hone := env.single (by simpa using hbatch)
    obtain ⟨call, hcall⟩ := List.length_eq_one_iff.1 hone
    rw [hcall] at hsome ⊢
    by_cases hnot : NotAllowed h call
    · simp [hnot]
    · simp [hnot] at hsome

theorem rejected_accounted (hrec : h.recording = true) {status : ℕ} (hlo : 100 ≤ status)
    (hhi : status ≤ 999) (hne : status ≠ 403) (body : Json) (hnone : refusedCalls h r = []) :
    Accounted h r (h.reject status body {}) := by
  have hrejected := reject_rejected h hlo hhi body
  obtain ⟨hforwarded, contentType, reply, hwritten⟩ := id hrejected
  refine ⟨by rw [hwritten]; rfl, ?_, ?_, ?_⟩
  · rw [reject_recorded hrec, responseLabels, hwritten, hforwarded]
    rfl
  · rw [reject_recorded hrec, hnone]
    rfl
  · constructor
    · intro hsome
      exact absurd hnone hsome
    · intro h403
      exact absurd (hrejected.status_eq h403) hne

theorem denied_accounted (hrec : h.recording = true) {env : Envelope}
    (hdenied : h.anyDenied env = true)
    (hrefused : refusedCalls h r = env.calls.filter fun call => NotAllowed h call) :
    Accounted h r (h.deny env {}) := by
  have hrejected := deny_rejected h env
  obtain ⟨hforwarded, contentType, reply, hwritten⟩ := id hrejected
  have hfilter : h.filter = true := (Bool.and_eq_true_iff.1 hdenied).1
  have hrequests : ∀ ms : List Str, requestLabels (ms.map .deniedMethod) = [] := by
    intro ms
    induction ms with
    | nil => rfl
    | cons m ms ih => exact ih
  have hmethods : ∀ ms : List Str, deniedLabels (ms.map .deniedMethod) = ms := by
    intro ms
    induction ms with
    | nil => rfl
    | cons m ms ih => exact congrArg (m :: ·) ih
  refine ⟨by rw [hwritten]; rfl, ?_, ?_, ?_⟩
  · rw [deny_recorded hrec, responseLabels, hwritten, hforwarded]
    exact congrArg (_ :: ·) (hrequests _)
  · rw [deny_recorded hrec, hrefused, ← denyBody_labels hdenied]
    exact hmethods _
  · rw [hrefused, ← anyDenied_eq env hfilter]
    exact iff_of_true hdenied hrejected

theorem forward_status {c : Client} {path : Bytes} {header : Header} {body : Bytes}
    (hnet : StandardStatuses net) {resp : Response}
    (hresult : c.forward net path header body = .ok resp) :
    200 ≤ resp.status ∧ resp.status ≤ 599 := by
  unfold Client.forward at hresult
  split at hresult
  · split at hresult
    · cases hresult
    · rename_i answer hsend
      split at hresult
      · cases hresult
      · obtain rfl := Except.ok.inj hresult
        exact hnet _ answer hsend
  · cases hresult

/-- What is recorded and written for a request that is handed on. -/
theorem forward_records (hrec : h.recording = true) (hnet : StandardStatuses net)
    (env : Envelope) : ∃ status contentType body,
      (h.forward net r env {}).written = [⟨status, contentType, body⟩] ∧
        (h.forward net r env {}).recorded = [.request .allowed status] := by
  unfold forward
  cases hresult : h.client.forward net r.path r.header env.raw with
  | error e =>
    obtain ⟨body, hwritten⟩ := handleUpstreamError_written h env e
      { forwarded := [⟨r.path, r.header, env.raw⟩] } rfl
    refine ⟨_, _, body, hwritten, ?_⟩
    simp only [handleUpstreamError, writeJson, write_recorded, record_recorded hrec]
    rfl
  | ok resp =>
    have hstatus := forward_status hnet hresult
    obtain ⟨contentType, hwritten⟩ := writeUpstreamResponse_written resp (by omega) (by omega)
      (record_written h (.request .allowed resp.status)
        { forwarded := [⟨r.path, r.header, env.raw⟩] })
    refine ⟨_, contentType, _, hwritten, ?_⟩
    simp only [writeUpstreamResponse, write_recorded, record_recorded hrec]
    rfl

theorem forwarded_accounted (hrec : h.recording = true) (hnet : StandardStatuses net)
    (env : Envelope) (hnone : refusedCalls h r = []) : Accounted h r (h.forward net r env {}) := by
  obtain ⟨status, contentType, body, hwritten, hrecorded⟩ := forward_records hrec hnet env
  have hforwarded := forward_forwarded h net r env
  refine ⟨by rw [hwritten]; rfl, ?_, ?_, ?_⟩
  · rw [hrecorded, responseLabels, hwritten, hforwarded]
    rfl
  · rw [hrecorded, hnone]
    rfl
  · constructor
    · intro hsome
      exact absurd hnone hsome
    · rintro ⟨hnot, -⟩
      rw [hforwarded] at hnot
      cases hnot

/-- Every way through the handler accounts for its request. -/
theorem serve_accounted (hrec : h.recording = true) (hnet : StandardStatuses net) :
    Accounted h r (h.serve net r {}) := by
  unfold serve readBody
  by_cases hlarge : h.maxBody < r.body.length
  · simp only [hlarge, if_true]
    have hnone : refusedCalls h r = [] := if_neg fun hcond => absurd hcond.1 (by omega)
    exact rejected_accounted hrec (by omega) (by omega) (by omega) _ hnone
  simp only [hlarge, if_false]
  cases hinterrupted : r.interrupted with
  | true =>
    have hnone : refusedCalls h r = [] :=
      if_neg fun hcond => absurd hcond.2.1 (by rw [hinterrupted]; decide)
    exact rejected_accounted hrec (by omega) (by omega) (by omega) _ hnone
  | false =>
    simp only [Bool.false_eq_true, if_false]
    cases hparse : RpcRequests.parse r.body with
    | none =>
      have hnone : refusedCalls h r = [] := by
        rw [refusedCalls, hparse]
        split <;> rfl
      exact rejected_accounted hrec (by omega) (by omega) (by omega) _ hnone
    | some env =>
      cases hdenied : h.anyDenied env with
      | true =>
        have hfilter : h.filter = true := (Bool.and_eq_true_iff.1 hdenied).1
        have hrefused : refusedCalls h r = env.calls.filter fun call => NotAllowed h call := by
          rw [refusedCalls, if_pos ⟨by omega, hinterrupted, hfilter⟩, hparse]
        simp only [hdenied, if_true]
        exact denied_accounted hrec hdenied hrefused
      | false =>
        have hnone : refusedCalls h r = [] := by
          rw [refusedCalls]
          split
          · rename_i hcond
            have hnot := mt (anyDenied_eq env hcond.2.2).2 (by simp [hdenied])
            rw [hparse]
            exact not_not.1 hnot
          · rfl
        simp only [hdenied, Bool.false_eq_true, if_false]
        exact forwarded_accounted hrec hnet env hnone

theorem Accounted.observed {x : Exchange} (hx : Accounted h r x) (hrec : h.recording = true) :
    Accounted h r (h.record .duration x) := by
  obtain ⟨honce, hrequest, hdenied, hpolicy⟩ := hx
  refine ⟨by rw [record_written]; exact honce, ?_, ?_, ?_⟩
  · rw [record_recorded hrec, requestLabels_append, hrequest, responseLabels, responseLabels,
      record_written, record_forwarded]
    exact List.append_nil _
  · rw [record_recorded hrec, deniedLabels_append, hdenied]
    exact List.append_nil _
  · rw [hpolicy, Rejected, Rejected, record_written, record_forwarded]

theorem serveHTTP_accounted (hrec : h.recording = true) (hnet : StandardStatuses net) :
    Accounted h r (h.serveHTTP net r) := (serve_accounted hrec hnet).observed hrec

end

/-- Over any sequence of requests the counters grow by one for each response, under its own
label, and by one for each refused call, under its own method. -/
theorem serveAll_accounted (h : Handler) (hrec : h.recording = true) (m : Metrics)
    (arrivals : List Arrival) (hnet : ∀ a ∈ arrivals, StandardStatuses a.net) :
    (∀ a ∈ arrivals, Accounted h a.request (a.served h)) ∧
      (serveAll h m arrivals).requests.total = m.requests.total + arrivals.length ∧
      (∀ label, (serveAll h m arrivals).requests.count label = m.requests.count label +
        (arrivals.flatMap fun a => responseLabels (a.served h)).count label) ∧
      (serveAll h m arrivals).denied.total = m.denied.total +
        (arrivals.flatMap fun a => refusedCalls h a.request).length ∧
      ∀ method, (serveAll h m arrivals).denied.count method = m.denied.count method +
        ((arrivals.flatMap fun a => refusedCalls h a.request).map methodLabel).count method := by
  have haccounted : ∀ a ∈ arrivals, Accounted h a.request (a.served h) := fun a ha =>
    serveHTTP_accounted hrec (hnet a ha)
  obtain ⟨hrequests, hdenied⟩ := serveAll_counts h arrivals m
  have hlabels : (arrivals.flatMap fun a => requestLabels (a.served h).recorded) =
      arrivals.flatMap fun a => responseLabels (a.served h) :=
    List.flatMap_congr fun a ha => (haccounted a ha).request
  have hmethods : (arrivals.flatMap fun a => deniedLabels (a.served h).recorded) =
      (arrivals.flatMap fun a => refusedCalls h a.request).map methodLabel := by
    rw [List.map_flatMap]
    exact List.flatMap_congr fun a ha => (haccounted a ha).denied
  have hlength : (arrivals.flatMap fun a => responseLabels (a.served h)).length =
      arrivals.length := by
    have hones : ∀ a ∈ arrivals, (responseLabels (a.served h)).length = 1 := by
      intro a ha
      rw [responseLabels, List.length_map]
      exact (haccounted a ha).once
    rw [List.length_flatMap, List.map_congr_left hones]
    simp
  rw [hlabels] at hrequests
  rw [hmethods] at hdenied
  refine ⟨haccounted, ?_, ?_, ?_, ?_⟩
  · rw [hrequests, Counter.total_incAll, hlength]
  · intro label
    rw [hrequests, Counter.count_incAll]
  · rw [hdenied, Counter.total_incAll, List.length_map]
  · intro method
    rw [hdenied, Counter.count_incAll]

/-- A filtering proxy with the default policy. -/
def countingHandler : Handler where
  allow := newAllowlist []
  client := ⟨utf8 "http://127.0.0.1:8331".toList, []⟩
  maxBody := 1000
  filter := true
  recording := true

theorem ok_digits : 200 ≤ 999 := by omega

theorem ok_final : 200 < 100 ∨ 200 = 101 ∨ 200 ≤ 200 := by omega

/-- An upstream that answers everything with an empty result. -/
def answeringNet : Net where
  accepts _ := true
  send _ := .ok ⟨200, [], .ok (utf8 "\x7b\x7d".toList), ok_digits, ok_final⟩

theorem answeringNet_standard : StandardStatuses answeringNet := by
  intro req answer hsend
  obtain rfl := Except.ok.inj hsend
  exact ⟨by decide, by decide⟩

def refusedBatch : Arrival where
  net := answeringNet
  request := ⟨utf8 "/".toList, [],
    utf8 "[\x7b\"method\":\"stop\"\x7d,\x7b\"method\":\"uptime\"\x7d,\x7b\x7d]".toList, false⟩

def uptimeCall : Arrival where
  net := answeringNet
  request := ⟨utf8 "/".toList, [], utf8 "\x7b\"method\":\"uptime\"\x7d".toList, false⟩

theorem standard_arrivals : ∀ a ∈ [refusedBatch, uptimeCall], StandardStatuses a.net := by
  intro a ha
  simp only [List.mem_cons, List.not_mem_nil, or_false] at ha
  rcases ha with rfl | rfl <;> exact answeringNet_standard

theorem serveAll_accounted_refusedBatch :
    (serveAll countingHandler newMetrics [refusedBatch, uptimeCall]).requests.total = 2 ∧
      (serveAll countingHandler newMetrics [refusedBatch, uptimeCall]).denied.total = 2 ∧
      (serveAll countingHandler newMetrics [refusedBatch, uptimeCall]).denied.count
        missingMethod = 1 := by
  obtain ⟨-, hrequests, -, hdenied, hmethod⟩ := serveAll_accounted countingHandler rfl newMetrics
    [refusedBatch, uptimeCall] standard_arrivals
  refine ⟨hrequests, ?_, ?_⟩
  · rw [hdenied]
    decide +kernel
  · rw [hmethod]
    decide +kernel

end BitcoinRpcOperator.RequestMetrics
