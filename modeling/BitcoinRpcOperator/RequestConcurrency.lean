import BitcoinRpcOperator.Interleavings
import BitcoinRpcOperator.RequestMetrics

/-!
# Requests handled at the same time

`net/http` runs the handler of each request in a goroutine of its own, and all of them share the
recorder. What a handler does becomes a list of effects in the order of the source, and the
effects of different requests come in any order.
-/

namespace BitcoinRpcOperator.RequestConcurrency
open Text JsonText RpcRequests ProxyHandler ProxyHandler.Handler RequestOutcomes RequestMetrics
open TransitionSystems Interleavings Dictionaries

inductive Effect where
  | forwarded (call : Forwarded)
  | recorded (r : Record)
  | written (w : Written)
  | panicked
  deriving DecidableEq, Repr

def after (x : Exchange) : Effect → Exchange
  | .forwarded call => { x with forwarded := x.forwarded ++ [call] }
  | .recorded r => { x with recorded := x.recorded ++ [r] }
  | .written w => { x with written := x.written ++ [w] }
  | .panicked => { x with panicked := true }

section
variable (h : Handler) (net : Net) (r : Request)

def recordEffects (t : Record) : List Effect := if h.recording then [.recorded t] else []

def writeEffects (status : ℕ) (contentType : Str) (body : Bytes) : List Effect :=
  if 100 ≤ status ∧ status ≤ 999 then [.written ⟨status, contentType, body⟩] else [.panicked]

def writeJsonEffects (status : ℕ) (body : Json) : List Effect :=
  writeEffects status jsonContentType (marshal body)

def writeUpstreamResponseEffects (resp : Response) : List Effect :=
  let contentType := resp.headers.get "Content-Type".toList
  writeEffects resp.status (if contentType = [] then jsonContentType else contentType) resp.body

def rejectEffects (status : ℕ) (body : Json) : List Effect :=
  recordEffects h (.request .denied status) ++ writeJsonEffects status body

def handleReadErrorEffects : ReadError → List Effect
  | .tooLarge => rejectEffects h 413 (simpleError .invalidRequest tooLargeMsg)
  | .other => rejectEffects h 400 (simpleError .parseError malformedMsg)

def handleUpstreamErrorEffects (env : Envelope) (e : ForwardError) : List Effect :=
  let status := if e = .timeout then 504 else 502
  let msg := if e = .timeout then timeoutMsg else unavailableMsg
  recordEffects h (.request .allowed status) ++
    writeJsonEffects status (envelopeErrorBody env .internalError msg)

def forwardEffects (env : Envelope) : List Effect :=
  .forwarded ⟨r.path, r.header, env.raw⟩ ::
    match h.client.forward net r.path r.header env.raw with
    | .error e => handleUpstreamErrorEffects h env e
    | .ok resp => recordEffects h (.request .allowed resp.status) ++ writeUpstreamResponseEffects resp

def denyEffects (env : Envelope) : List Effect :=
  let reply := h.denyBody env
  recordEffects h (.request .denied 403) ++
    (reply.2.flatMap (fun m => recordEffects h (.deniedMethod m)) ++ writeJsonEffects 403 reply.1)

def serveEffects : List Effect :=
  match h.readBody r with
  | .error e => handleReadErrorEffects h e
  | .ok body =>
    match RpcRequests.parse body with
    | none => rejectEffects h 400 (simpleError .parseError malformedMsg)
    | some env => if h.anyDenied env then denyEffects h env else forwardEffects h net r env

/-- `ServeHTTP`; the duration is observed when everything else is done, also after a panic. -/
def effects : List Effect := serveEffects h net r ++ recordEffects h .duration

end

section
variable {h : Handler} {net : Net} {r : Request}

theorem foldl_recordEffects (t : Record) (x : Exchange) :
    (recordEffects h t).foldl after x = h.record t x := by
  rw [recordEffects, record]
  split <;> rfl

theorem foldl_writeEffects (status : ℕ) (contentType : Str) (body : Bytes) (x : Exchange) :
    (writeEffects status contentType body).foldl after x = write status contentType body x := by
  rw [writeEffects, write]
  split <;> rfl

theorem foldl_rejectEffects (status : ℕ) (body : Json) (x : Exchange) :
    (rejectEffects h status body).foldl after x = h.reject status body x := by
  rw [rejectEffects, List.foldl_append, foldl_recordEffects, writeJsonEffects, foldl_writeEffects]
  rfl

theorem foldl_deniedEffects (ms : List Str) (x : Exchange) :
    (ms.flatMap fun m => recordEffects h (.deniedMethod m)).foldl after x =
      ms.foldl (fun x m => h.record (.deniedMethod m) x) x := by
  rw [List.foldl_flatMap]
  congr 1
  funext x m
  exact foldl_recordEffects _ x

theorem foldl_denyEffects (env : Envelope) (x : Exchange) :
    (denyEffects h env).foldl after x = h.deny env x := by
  simp only [denyEffects, List.foldl_append, foldl_recordEffects, foldl_deniedEffects,
    writeJsonEffects, foldl_writeEffects]
  rfl

theorem foldl_forwardEffects (env : Envelope) (x : Exchange) :
    (forwardEffects h net r env).foldl after x = h.forward net r env x := by
  rw [forwardEffects, List.foldl_cons, forward]
  cases h.client.forward net r.path r.header env.raw with
  | error e =>
    simp only [handleUpstreamErrorEffects, List.foldl_append, foldl_recordEffects, writeJsonEffects,
      foldl_writeEffects]
    rfl
  | ok resp =>
    simp only [writeUpstreamResponseEffects, List.foldl_append, foldl_recordEffects,
      foldl_writeEffects]
    rfl

theorem foldl_serveEffects (x : Exchange) :
    (serveEffects h net r).foldl after x = h.serve net r x := by
  rw [serveEffects, serve]
  cases h.readBody r with
  | error e => cases e <;> exact foldl_rejectEffects _ _ x
  | ok body =>
    cases hparse : RpcRequests.parse body with
    | none => simp only [hparse, foldl_rejectEffects]
    | some env =>
      simp only [hparse]
      split
      · exact foldl_denyEffects env x
      · exact foldl_forwardEffects env x

/-- Taken one after the other, the effects make the exchange. -/
theorem foldl_effects (h : Handler) (net : Net) (r : Request) :
    (effects h net r).foldl after {} = h.serveHTTP net r := by
  rw [effects, List.foldl_append, foldl_serveEffects, foldl_recordEffects]
  rfl

end

def records (es : List Effect) : List Record :=
  es.filterMap fun
    | .recorded r => some r
    | _ => none

def responses (es : List Effect) : List Written :=
  es.filterMap fun
    | .written w => some w
    | _ => none

def calls (es : List Effect) : List Forwarded :=
  es.filterMap fun
    | .forwarded call => some call
    | _ => none

theorem foldl_after (es : List Effect) (x : Exchange) :
    (es.foldl after x).recorded = x.recorded ++ records es ∧
      (es.foldl after x).written = x.written ++ responses es ∧
      (es.foldl after x).forwarded = x.forwarded ++ calls es := by
  induction es generalizing x with
  | nil => simp [records, responses, calls]
  | cons e es ih =>
    obtain ⟨hrecorded, hwritten, hforwarded⟩ := ih (after x e)
    rw [List.foldl_cons, hrecorded, hwritten, hforwarded]
    cases e <;> simp [after, records, responses, calls]

/-- The effects of a request with a decent answer: it may be handed on, then it is recorded,
then answered, then its duration is observed. -/
def Ordered (es : List Effect) : Prop :=
  ∃ (fs : List Forwarded) (ms : List Str) (w : Written),
    es = fs.map .forwarded ++ .recorded (.request (if fs = [] then .denied else .allowed) w.status) ::
      ms.map (fun m => .recorded (.deniedMethod m)) ++ [.written w] ++ [.recorded .duration]

section
variable {h : Handler} {net : Net} {r : Request}

theorem recordEffects_eq (hrec : h.recording = true) (t : Record) : recordEffects h t = [.recorded t] := by
  rw [recordEffects, if_pos hrec]

theorem writeEffects_eq {status : ℕ} (hlo : 100 ≤ status) (hhi : status ≤ 999) (contentType : Str)
    (body : Bytes) : writeEffects status contentType body = [.written ⟨status, contentType, body⟩] := by
  rw [writeEffects, if_pos ⟨hlo, hhi⟩]

theorem rejectEffects_ordered (hrec : h.recording = true) {status : ℕ} (hlo : 100 ≤ status)
    (hhi : status ≤ 999) (body : Json) :
    Ordered (rejectEffects h status body ++ recordEffects h .duration) := by
  refine ⟨[], [], ⟨status, jsonContentType, marshal body⟩, ?_⟩
  rw [rejectEffects, recordEffects_eq hrec, recordEffects_eq hrec, writeJsonEffects,
    writeEffects_eq hlo hhi]
  rfl

theorem denyEffects_ordered (hrec : h.recording = true) (env : Envelope) :
    Ordered (denyEffects h env ++ recordEffects h .duration) := by
  refine ⟨[], (h.denyBody env).2, ⟨403, jsonContentType, marshal (h.denyBody env).1⟩, ?_⟩
  simp only [denyEffects, recordEffects_eq hrec, writeJsonEffects,
    writeEffects_eq (show 100 ≤ 403 by omega) (show 403 ≤ 999 by omega), ← List.map_eq_flatMap]
  simp

theorem forwarded_ordered (hrec : h.recording = true) (call : Forwarded) {status : ℕ}
    (hlo : 100 ≤ status) (hhi : status ≤ 999) (contentType : Str) (body : Bytes) :
    Ordered (.forwarded call :: (recordEffects h (.request .allowed status) ++
      writeEffects status contentType body) ++ recordEffects h .duration) := by
  refine ⟨[call], [], ⟨status, contentType, body⟩, ?_⟩
  rw [recordEffects_eq hrec, recordEffects_eq hrec, writeEffects_eq hlo hhi]
  rfl

theorem forwardEffects_ordered (hrec : h.recording = true) (hnet : StandardStatuses net)
    (env : Envelope) : Ordered (forwardEffects h net r env ++ recordEffects h .duration) := by
  unfold forwardEffects
  cases hresult : h.client.forward net r.path r.header env.raw with
  | error e =>
    have hstatus : 100 ≤ (if e = .timeout then 504 else 502) ∧
        (if e = .timeout then 504 else 502) ≤ 999 := by split <;> omega
    exact forwarded_ordered hrec _ hstatus.1 hstatus.2 _ _
  | ok resp =>
    have hstatus := forward_status hnet hresult
    exact forwarded_ordered hrec _ (by omega) (by omega) _ _

theorem effects_ordered (hrec : h.recording = true) (hnet : StandardStatuses net) :
    Ordered (effects h net r) := by
  unfold effects serveEffects
  cases h.readBody r with
  | error e =>
    cases e
    · exact rejectEffects_ordered hrec (by omega) (by omega) _
    · exact rejectEffects_ordered hrec (by omega) (by omega) _
  | ok body =>
    cases hparse : RpcRequests.parse body with
    | none =>
      simp only [hparse]
      exact rejectEffects_ordered hrec (by omega) (by omega) _
    | some env =>
      simp only [hparse]
      split
      · exact denyEffects_ordered hrec env
      · exact forwardEffects_ordered hrec hnet env

end

def answers (done : List Effect) : List (Str × Str) := responseLabels (done.foldl after {})

def durations (es : List Effect) : ℕ := (records es).count .duration

theorem answers_eq (done : List Effect) : answers done = (responses done).map fun w =>
    (decisionText (if calls done = [] then .denied else .allowed), itoa w.status) := by
  obtain ⟨-, hwritten, hforwarded⟩ := foldl_after done {}
  rw [answers, responseLabels, hwritten, hforwarded]
  rfl

/-- Before its response is out a request may have been recorded; then it has been, with all its
denied methods, and its duration comes last. -/
inductive Stage (label : Str × Str) (methods : List Str) (done : List Effect) : Prop
  | unanswered (answers : answers done = []) (requests : requestLabels (records done) <+: [label])
      (denied : deniedLabels (records done) <+: methods) (durations : durations done = 0)
  | answered (answers : answers done = [label]) (requests : requestLabels (records done) = [label])
      (denied : deniedLabels (records done) = methods) (durations : durations done ≤ 1)

section
variable {es done : List Effect}

theorem records_append (es fs : List Effect) : records (es ++ fs) = records es ++ records fs :=
  List.filterMap_append

theorem responses_append (es fs : List Effect) : responses (es ++ fs) = responses es ++ responses fs :=
  List.filterMap_append

theorem calls_append (es fs : List Effect) : calls (es ++ fs) = calls es ++ calls fs :=
  List.filterMap_append

/-- What comes before the response. -/
def opening (fs : List Forwarded) (t : Record) (ms : List Str) : List Effect :=
  fs.map .forwarded ++ .recorded t :: ms.map fun m => .recorded (.deniedMethod m)

theorem opening_parts (fs : List Forwarded) (t : Record) (ms : List Str) :
    records (opening fs t ms) = t :: ms.map .deniedMethod ∧ responses (opening fs t ms) = [] ∧
      calls (opening fs t ms) = fs := by
  refine ⟨?_, ?_, ?_⟩ <;>
    simp [opening, records, responses, calls, List.filterMap_map]

theorem requestLabels_denied (ms : List Str) : requestLabels (ms.map .deniedMethod) = [] := by
  simp [requestLabels, List.filterMap_map]

theorem deniedLabels_denied (ms : List Str) : deniedLabels (ms.map .deniedMethod) = ms := by
  simp [deniedLabels, List.filterMap_map]

theorem count_duration_denied (ms : List Str) :
    (ms.map Record.deniedMethod).count .duration = 0 := by
  rw [List.count_eq_zero, List.mem_map]
  rintro ⟨m, -, hm⟩
  cases hm

def responseLabel (fs : List Forwarded) (w : Written) : Str × Str :=
  (decisionText (if fs = [] then .denied else .allowed), itoa w.status)

def requestRecord (fs : List Forwarded) (w : Written) : Record :=
  .request (if fs = [] then .denied else .allowed) w.status

section
variable (fs : List Forwarded) (ms : List Str) (w : Written)

theorem requestLabels_opening :
    requestLabels (requestRecord fs w :: ms.map .deniedMethod) = [responseLabel fs w] :=
  congrArg (_ :: ·) (requestLabels_denied ms)

theorem deniedLabels_opening : deniedLabels (requestRecord fs w :: ms.map .deniedMethod) = ms :=
  deniedLabels_denied ms

theorem durations_opening : (requestRecord fs w :: ms.map .deniedMethod).count .duration = 0 := by
  rw [List.count_cons_of_ne (by nofun), count_duration_denied]

/-- With its response a request has been recorded whole. -/
theorem answered_stage {rest : List Effect} (hrest : rest = [] ∨ rest = [.recorded .duration]) :
    Stage (responseLabel fs w) ms (opening fs (requestRecord fs w) ms ++ [.written w] ++ rest) := by
  obtain ⟨hrecords, hresponses, hcalls⟩ := opening_parts fs (requestRecord fs w) ms
  refine .answered ?_ ?_ ?_ ?_
  · simp only [answers_eq, responses_append, calls_append, hresponses, hcalls]
    rcases hrest with rfl | rfl <;> simp [responses, calls, responseLabel]
  · simp only [records_append, hrecords, requestLabels_append, requestLabels_opening]
    rcases hrest with rfl | rfl <;> rfl
  · simp only [records_append, hrecords, deniedLabels_append, deniedLabels_opening]
    rcases hrest with rfl | rfl <;> simp [records, deniedLabels]
  · simp only [durations, records_append, hrecords, List.count_append, durations_opening]
    rcases hrest with rfl | rfl
    · exact Nat.zero_le 1
    · exact Nat.le_refl 1

/-- Before its response a request has been recorded in part. -/
theorem unanswered_stage {done : List Effect} (h : done <+: opening fs (requestRecord fs w) ms) :
    Stage (responseLabel fs w) ms done := by
  obtain ⟨hrecords, hresponses, -⟩ := opening_parts fs (requestRecord fs w) ms
  have hprefix : records done <+: requestRecord fs w :: ms.map .deniedMethod :=
    hrecords ▸ h.filterMap _
  refine .unanswered ?_ ?_ ?_ ?_
  · have hwritten : responses done <+: [] := hresponses ▸ h.filterMap _
    rw [answers_eq, List.prefix_nil.1 hwritten]
    rfl
  · exact requestLabels_opening fs ms w ▸ hprefix.filterMap _
  · exact deniedLabels_opening fs ms w ▸ hprefix.filterMap _
  · exact Nat.le_zero.1 (durations_opening fs ms w ▸ hprefix.sublist.count_le _)

end

theorem Ordered.stage (hes : Ordered es) (hdone : done <+: es) :
    ∃ label, Stage label (deniedLabels (records es)) done := by
  obtain ⟨fs, ms, w, hshape⟩ := hes
  replace hshape : es = opening fs (requestRecord fs w) ms ++ [.written w] ++ [.recorded .duration] :=
    hshape
  have hall : deniedLabels (records es) = ms := by
    obtain ⟨hrecords, -, -⟩ := opening_parts fs (requestRecord fs w) ms
    simp only [hshape, records_append, hrecords, deniedLabels_append, deniedLabels_opening]
    exact (List.append_nil _).trans (List.append_nil _)
  rw [hshape, List.prefix_concat_iff, List.prefix_concat_iff] at hdone
  rw [hall]
  refine ⟨responseLabel fs w, ?_⟩
  rcases hdone with rfl | rfl | hbefore
  · exact answered_stage fs ms w (.inr rfl)
  · simpa using answered_stage fs ms w (.inl rfl)
  · exact unanswered_stage fs ms w hbefore

end

def observe (m : Metrics) : Effect → Metrics
  | .recorded r => m.take r
  | _ => m

def plan (h : Handler) (a : Arrival) : List Effect := effects h a.net a.request

abbrev Proxy := Pool Metrics Arrival Effect

def handling (h : Handler) : Proxy → Move Arrival → Option Proxy := Interleavings.step (plan h) observe

def Proxy.answers (s : Proxy) : List (Str × Str) := s.jobs.flatMap fun p => RequestConcurrency.answers p.done

/-- How many requests have no response yet. -/
def Proxy.unanswered (s : Proxy) : ℕ := s.jobs.countP fun p => RequestConcurrency.answers p.done = []

/-- The requests whose response is out. -/
def Proxy.answered (s : Proxy) : List Arrival :=
  (s.jobs.filter fun p => RequestConcurrency.answers p.done ≠ []).map Progress.job

/-- The labels of the calls that policy refuses in a request. -/
def refusals (h : Handler) (a : Arrival) : List Str := (refusedCalls h a.request).map methodLabel

section
variable {label : Str × Str} {method : Str}

theorem observe_requests (m : Metrics) (e : Effect) (label : Str × Str) :
    (observe m e).requests.count label =
      m.requests.count label + (requestLabels (records [e])).count label := by
  cases e with
  | recorded r =>
    obtain ⟨hrequests, -⟩ := foldl_take [r] m
    exact (congrArg (Counter.count · label) hrequests).trans (Counter.count_incAll _ _ _)
  | forwarded _ | written _ | panicked => rfl

theorem observe_denied (m : Metrics) (e : Effect) (method : Str) :
    (observe m e).denied.count method =
      m.denied.count method + (deniedLabels (records [e])).count method := by
  cases e with
  | recorded r =>
    obtain ⟨-, hdenied⟩ := foldl_take [r] m
    exact (congrArg (Counter.count · method) hdenied).trans (Counter.count_incAll _ _ _)
  | forwarded _ | written _ | panicked => rfl

theorem observe_observations (m : Metrics) (e : Effect) :
    (observe m e).observations = m.observations + durations [e] := by
  cases e with
  | recorded r => cases r <;> rfl
  | forwarded _ | written _ | panicked => rfl

theorem records_cons (e : Effect) (es : List Effect) : records (e :: es) = records [e] ++ records es :=
  records_append [e] es

theorem sum_requests (es : List Effect) (label : Str × Str) :
    (es.map fun e => (requestLabels (records [e])).count label).sum =
      (requestLabels (records es)).count label := by
  induction es with
  | nil => rfl
  | cons e es ih =>
    rw [List.map_cons, List.sum_cons, ih, records_cons e es, requestLabels_append, List.count_append]

theorem sum_denied (es : List Effect) (method : Str) :
    (es.map fun e => (deniedLabels (records [e])).count method).sum =
      (deniedLabels (records es)).count method := by
  induction es with
  | nil => rfl
  | cons e es ih =>
    rw [List.map_cons, List.sum_cons, ih, records_cons e es, deniedLabels_append, List.count_append]

theorem sum_durations (es : List Effect) : (es.map fun e => durations [e]).sum = durations es := by
  induction es with
  | nil => rfl
  | cons e es ih =>
    rw [List.map_cons, List.sum_cons, ih]
    simp only [durations, records_cons e es, List.count_append]

end

section
variable {h : Handler} {ms : List (Move Arrival)} {s : Proxy}

/-- What a job has done is the first part of what a request does. -/
theorem done_of_run {shared : Metrics} (hrun : run (handling h) ⟨shared, []⟩ ms = some s)
    {p : Progress Arrival Effect} (hp : p ∈ s.jobs) :
    p.done <+: effects h p.job.net p.job.request :=
  ⟨p.pending, onPlan_run hrun p hp⟩

theorem denied_plan (hrec : h.recording = true) {a : Arrival} (hnet : StandardStatuses a.net) :
    deniedLabels (records (plan h a)) = refusals h a := by
  have hdenied := (serveHTTP_accounted (r := a.request) hrec hnet).denied
  rw [← foldl_effects, (foldl_after _ _).1] at hdenied
  exact hdenied

theorem stage_run (hrec : h.recording = true) {shared : Metrics}
    (hrun : run (handling h) ⟨shared, []⟩ ms = some s)
    (hnet : ∀ a ∈ submissions ms, StandardStatuses a.net) {p : Progress Arrival Effect}
    (hp : p ∈ s.jobs) : ∃ label, Stage label (refusals h p.job) p.done := by
  have hjob : p.job ∈ submissions ms := jobs_run hrun ▸ List.mem_map_of_mem hp
  have hstage := (effects_ordered hrec (hnet _ hjob)).stage (done_of_run hrun hp)
  rwa [← denied_plan hrec (hnet _ hjob)]

theorem unanswered_eq (ps : List (Progress Arrival Effect)) :
    (ps.countP fun p => answers p.done = []) =
      (ps.map fun p => if answers p.done = [] then 1 else 0).sum := by
  induction ps with
  | nil => rfl
  | cons p ps ih =>
    rw [List.countP_cons, ih, List.map_cons, List.sum_cons, add_comm]
    simp

theorem count_answered (ps : List (Progress Arrival Effect)) (method : Str) :
    (((ps.filter fun p => answers p.done ≠ []).map Progress.job).flatMap (refusals h)).count method =
      (ps.map fun p => if answers p.done = [] then 0 else (refusals h p.job).count method).sum := by
  induction ps with
  | nil => rfl
  | cons p ps ih =>
    rw [List.map_cons, List.sum_cons, ← ih]
    by_cases hp : answers p.done = []
    · simp [hp]
    · simp [hp, List.count_append]

variable {label : Str × Str} {methods : List Str} {done : List Effect}

theorem Stage.requests_bounds (hstage : Stage label methods done) (l : Str × Str) :
    (answers done).count l ≤ (requestLabels (records done)).count l ∧
      (requestLabels (records done)).count l ≤
        (answers done).count l + if answers done = [] then 1 else 0 := by
  cases hstage with
  | unanswered hanswers hrequests hdenied hdurations =>
    rw [hanswers, if_pos rfl]
    refine ⟨Nat.zero_le _, (hrequests.sublist.count_le l).trans ?_⟩
    exact (List.count_le_length).trans (Nat.le_add_left _ _)
  | answered hanswers hrequests hdenied hdurations =>
    rw [hanswers, hrequests]
    exact ⟨le_rfl, Nat.le_add_right _ _⟩

theorem Stage.denied_bounds (hstage : Stage label methods done) (method : Str) :
    (if answers done = [] then 0 else methods.count method) ≤ (deniedLabels (records done)).count method ∧
      (deniedLabels (records done)).count method ≤ methods.count method := by
  cases hstage with
  | unanswered hanswers hrequests hdenied hdurations =>
    rw [if_pos hanswers]
    exact ⟨Nat.zero_le _, hdenied.sublist.count_le method⟩
  | answered hanswers hrequests hdenied hdurations =>
    rw [if_neg (by rw [hanswers]; nofun), hdenied]
    exact ⟨le_rfl, le_rfl⟩

theorem Stage.durations_le (hstage : Stage label methods done) :
    durations done ≤ (answers done).length ∧
      (answers done).length + (if answers done = [] then 1 else 0) = 1 := by
  cases hstage with
  | unanswered hanswers hrequests hdenied hdurations =>
    rw [hanswers, hdurations]
    exact ⟨le_rfl, rfl⟩
  | answered hanswers hrequests hdenied hdurations =>
    rw [hanswers]
    exact ⟨hdurations, rfl⟩

variable (hrec : h.recording = true) (hrun : run (handling h) ⟨newMetrics, []⟩ ms = some s)
  (hnet : ∀ a ∈ submissions ms, StandardStatuses a.net)
include hrec hrun hnet

/-- The request counter is never behind the responses, and ahead of them only by requests that are
on their way. -/
theorem requests_run (l : Str × Str) : s.answers.count l ≤ s.shared.requests.count l ∧
    s.shared.requests.count l ≤ s.answers.count l + s.unanswered := by
  have hview := view_run (fun m : Metrics => m.requests.count l)
    (fun e => (requestLabels (records [e])).count l) (fun m e => observe_requests m e l) hrun
  simp only [newMetrics, Counter.count_empty, zero_add, sum_requests] at hview
  rw [hview, Proxy.answers, List.count_flatMap, Proxy.unanswered, unanswered_eq, ← List.sum_map_add]
  constructor
  · apply List.sum_le_sum
    intro p hp
    obtain ⟨_, hstage⟩ := stage_run hrec hrun hnet hp
    exact (hstage.requests_bounds l).1
  · apply List.sum_le_sum
    intro p hp
    obtain ⟨_, hstage⟩ := stage_run hrec hrun hnet hp
    exact (hstage.requests_bounds l).2

theorem denied_run (method : Str) :
    (s.answered.flatMap (refusals h)).count method ≤ s.shared.denied.count method ∧
      s.shared.denied.count method ≤ ((submissions ms).flatMap (refusals h)).count method := by
  have hview := view_run (fun m : Metrics => m.denied.count method)
    (fun e => (deniedLabels (records [e])).count method) (fun m e => observe_denied m e method) hrun
  simp only [newMetrics, Counter.count_empty, zero_add, sum_denied] at hview
  rw [hview, Proxy.answered, count_answered, ← jobs_run hrun, List.flatMap_map, List.count_flatMap]
  constructor
  · apply List.sum_le_sum
    intro p hp
    obtain ⟨_, hstage⟩ := stage_run hrec hrun hnet hp
    exact (hstage.denied_bounds method).1
  · apply List.sum_le_sum
    intro p hp
    obtain ⟨_, hstage⟩ := stage_run hrec hrun hnet hp
    exact (hstage.denied_bounds method).2

theorem observations_run : s.shared.observations ≤ s.answers.length ∧
    s.answers.length + s.unanswered = (submissions ms).length := by
  have hview := view_run Metrics.observations (fun e => durations [e]) observe_observations hrun
  simp only [newMetrics, zero_add, sum_durations] at hview
  rw [hview, Proxy.answers, List.length_flatMap, Proxy.unanswered, unanswered_eq, ← jobs_run hrun,
    List.length_map]
  constructor
  · apply List.sum_le_sum
    intro p hp
    obtain ⟨_, hstage⟩ := stage_run hrec hrun hnet hp
    exact hstage.durations_le.1
  · rw [← List.sum_map_add, List.map_congr_left (g := fun _ => 1), List.map_const', List.sum_replicate]
    · simp
    · intro p hp
      obtain ⟨_, hstage⟩ := stage_run hrec hrun hnet hp
      exact hstage.durations_le.2

end

/-- At any moment of any run the request counter of each label is not behind the responses with
that label, and ahead of them by at most the requests without a response; the denied methods of
answered requests have been counted, and none but those of requests that came in; and no
duration is observed before its response. -/
theorem run_counters {h : Handler} (hrec : h.recording = true) {ms : List (Move Arrival)} {s : Proxy}
    (hrun : run (handling h) ⟨newMetrics, []⟩ ms = some s)
    (hnet : ∀ a ∈ submissions ms, StandardStatuses a.net) :
    (∀ label, s.answers.count label ≤ s.shared.requests.count label ∧
      s.shared.requests.count label ≤ s.answers.count label + s.unanswered) ∧
    (∀ method, (s.answered.flatMap (refusals h)).count method ≤ s.shared.denied.count method ∧
      s.shared.denied.count method ≤ ((submissions ms).flatMap (refusals h)).count method) ∧
    s.shared.observations ≤ s.answers.length ∧
    s.answers.length + s.unanswered = (submissions ms).length :=
  ⟨requests_run hrec hrun hnet, denied_run hrec hrun hnet, observations_run hrec hrun hnet⟩

/-- A denied batch and a call overlap: the call is counted first and answered last. -/
def overlapping : List (Move Arrival) :=
  [.submit refusedBatch, .submit uptimeCall, .advance 1, .advance 1, .advance 0, .advance 0, .advance 0,
    .advance 0, .advance 0, .advance 1, .advance 1]

theorem overlapping_runs :
    ∃ s, run (handling countingHandler) ⟨newMetrics, []⟩ (overlapping.take 9) = some s :=
  Option.isSome_iff_exists.1 (by decide +kernel)

theorem run_counters_overlapping : ∃ s : Proxy,
    run (handling countingHandler) ⟨newMetrics, []⟩ (overlapping.take 9) = some s ∧
      (∀ label, s.answers.count label ≤ s.shared.requests.count label ∧
        s.shared.requests.count label ≤ s.answers.count label + s.unanswered) ∧
      s.shared.observations ≤ s.answers.length ∧ s.answers.length + s.unanswered = 2 := by
  obtain ⟨s, hrun⟩ := overlapping_runs
  obtain ⟨hrequests, -, hobservations, hall⟩ :=
    @run_counters countingHandler rfl (overlapping.take 9) s hrun standard_arrivals
  exact ⟨s, hrun, hrequests, hobservations, hall⟩

section
variable {h : Handler} {ms : List (Move Arrival)} {s : Proxy}

theorem foldl_observe (es : List Effect) (m : Metrics) :
    es.foldl observe m = (records es).foldl Metrics.take m := by
  induction es generalizing m with
  | nil => rfl
  | cons e es ih =>
    rw [List.foldl_cons, ih]
    cases e <;> rfl

theorem foldl_plan (a : Arrival) (m : Metrics) :
    (plan h a).foldl observe m = (a.served h).recorded.foldl Metrics.take m := by
  rw [foldl_observe, Arrival.served, ← foldl_effects, (foldl_after _ _).1]
  rfl

theorem serveAll_eq (m : Metrics) (arrivals : List Arrival) :
    serveAll h m arrivals = arrivals.foldl (fun m a => (plan h a).foldl observe m) m := by
  simp only [serveAll, foldl_plan]

/-- When all requests of a run are done, each has come to what it comes to by itself, and the
metrics are those of the same requests served one at a time, in whatever order. -/
theorem run_settled (hrun : run (handling h) ⟨newMetrics, []⟩ ms = some s) (hsettled : s.Settled) :
    (∀ p ∈ s.jobs, p.done.foldl after {} = p.job.served h) ∧
      ∀ arrivals : List Arrival, arrivals.Perm (submissions ms) →
        (∀ label, s.shared.requests.count label =
          (serveAll h newMetrics arrivals).requests.count label) ∧
        (∀ method, s.shared.denied.count method =
          (serveAll h newMetrics arrivals).denied.count method) ∧
        s.shared.observations = (serveAll h newMetrics arrivals).observations := by
  refine ⟨fun p hp => ?_, fun arrivals hperm => ?_⟩
  · have hplan := onPlan_run hrun p hp
    rw [hsettled p hp, List.append_nil] at hplan
    rw [hplan]
    exact foldl_effects h p.job.net p.job.request
  · rw [serveAll_eq]
    refine ⟨fun label => ?_, fun method => ?_, ?_⟩
    · exact view_sequential (fun m : Metrics => m.requests.count label) _
        (fun m e => observe_requests m e label) hrun hsettled hperm
    · exact view_sequential (fun m : Metrics => m.denied.count method) _
        (fun m e => observe_denied m e method) hrun hsettled hperm
    · exact view_sequential Metrics.observations _ observe_observations hrun hsettled hperm

end

theorem overlapping_settles :
    ∃ s, run (handling countingHandler) ⟨newMetrics, []⟩ overlapping = some s ∧ s.Settled := by
  have hsettled : ((run (handling countingHandler) ⟨newMetrics, []⟩ overlapping).any fun s =>
      s.jobs.all fun p => p.pending.isEmpty) = true := by decide +kernel
  obtain ⟨s, hrun, hs⟩ := (Option.any_eq_true _ _).1 hsettled
  exact ⟨s, hrun, fun p hp => List.isEmpty_iff.1 (List.all_eq_true.1 hs p hp)⟩

theorem run_settled_overlapping : ∃ s : Proxy,
    run (handling countingHandler) ⟨newMetrics, []⟩ overlapping = some s ∧
      (∀ p ∈ s.jobs, p.done.foldl after {} = p.job.served countingHandler) ∧
      ∀ label, s.shared.requests.count label =
        (serveAll countingHandler newMetrics [uptimeCall, refusedBatch]).requests.count label := by
  obtain ⟨s, hrun, hsettled⟩ := overlapping_settles
  obtain ⟨hserved, hcounts⟩ := @run_settled countingHandler overlapping s hrun hsettled
  exact ⟨s, hrun, hserved, (hcounts _ (List.Perm.swap _ _ _)).1⟩

end BitcoinRpcOperator.RequestConcurrency
