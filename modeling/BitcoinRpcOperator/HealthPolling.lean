import BitcoinRpcOperator.HealthProbe
import BitcoinRpcOperator.HeaderForwarding
import BitcoinRpcOperator.TransitionSystems

/-!
# Polling the node, and telling about it

`poll` and `store` of `internal/upstream/poller.go`, the `/health` endpoint and the gauge. The
poller stores the outcome of a poll before it calls back, and the listeners read in between.
-/

namespace BitcoinRpcOperator.HealthPolling
open Text JsonText RpcRequests ProxyHandler ProxyHandler.Handler ProxyConfiguration HealthProbe
open TransitionSystems

inductive PollError where
  | forward (e : ForwardError)
  | serverError (status : ℕ)
  | unauthorized (status : ℕ)
  deriving DecidableEq, Repr

/-- `Health`; the time of the poll is left out. -/
structure Health where
  reachable : Bool := false
  height : ℤ := heightUnknown
  err : Option PollError := none
  deriving DecidableEq, Repr

structure Poller where
  client : Client
  /-- Empty without credentials for the probe. -/
  authHeader : Str
  /-- What `http.NewRequest` says about a URL that makes no request. -/
  urlError : Str

def healthCheckPath : Bytes := utf8 "/".toList

def getblockcountBody : Bytes :=
  utf8 "\x7b\"jsonrpc\":\"1.0\",\"id\":\"healthcheck\",\"method\":\"getblockcount\",\"params\":[]\x7d".toList

/-- `IsHealthy`, also without a poll. -/
def isHealthy (h : Option Health) : Bool := h.any Health.reachable

def Poller.probeHeader (p : Poller) : Header :=
  if p.authHeader = [] then [] else [("Authorization".toList, [p.authHeader])]

def Poller.poll (p : Poller) (net : Net) : Health :=
  match p.client.forward net healthCheckPath p.probeHeader getblockcountBody with
  | .error e => { err := some (.forward e) }
  | .ok resp =>
    if 500 ≤ resp.status then { err := some (.serverError resp.status) }
    else if p.authHeader ≠ [] ∧ (resp.status = 401 ∨ resp.status = 403) then
      { err := some (.unauthorized resp.status) }
    else { reachable := true, height := parseHeight resp.body }

/-- `Error` of a poll's error. -/
def PollError.text (urlError : Str) : PollError → Str
  | .forward .timeout => "upstream timeout".toList
  | .forward .unavailable => "upstream unavailable".toList
  | .forward .badRequest => urlError
  | .serverError status => "upstream returned 5xx: ".toList ++ Nat.toDigits 10 status
  | .unauthorized status =>
    "upstream rejected health-probe credentials: ".toList ++ Nat.toDigits 10 status

structure HealthResponse where
  status : Str
  version : Str := []
  upstream : Str
  height : Option ℤ := none
  error : Str := []

/-- A member that is left out when its text is empty. -/
def omitEmpty (name text : Str) : List (Bytes × Json) := if text = [] then [] else [textField name text]

def heightField (height : Option ℤ) : List (Bytes × Json) :=
  (height.map fun n => (utf8 "height".toList, Json.number (utf8 (formatInt n)))).toList

def HealthResponse.json (r : HealthResponse) : Json :=
  .object (textField "status".toList r.status :: omitEmpty "version".toList r.version ++
    textField "upstream".toList r.upstream :: heightField r.height ++ omitEmpty "error".toList r.error)

def evaluate (urlError : Str) : Option Health → HealthResponse × ℕ
  | none => (⟨"starting".toList, [], "pending".toList, none, []⟩, 503)
  | some h =>
    if h.reachable then
      (⟨"ok".toList, [], "ok".toList, if 0 ≤ h.height then some h.height else none, []⟩, 200)
    else (⟨"degraded".toList, [], "unreachable".toList, none,
      (h.err.map (PollError.text urlError)).getD []⟩, 503)

def serveHealth (urlError version : Str) (h : Option Health) : Written :=
  let (resp, code) := evaluate urlError h
  ⟨code, jsonContentType, marshal { resp with version }.json⟩

theorem status_readsBack : ReadsBack "status".toList :=
  ⟨lexeme_of_plain (by decide +kernel), by decide +kernel⟩

theorem version_readsBack : ReadsBack "version".toList :=
  ⟨lexeme_of_plain (by decide +kernel), by decide +kernel⟩

theorem upstream_readsBack : ReadsBack "upstream".toList :=
  ⟨lexeme_of_plain (by decide +kernel), by decide +kernel⟩

theorem height_readsBack : ReadsBack "height".toList :=
  ⟨lexeme_of_plain (by decide +kernel), by decide +kernel⟩

def HealthResponse.value (r : HealthResponse) : Value :=
  .object (("status".toList, .string r.status) ::
    (if r.version = [] then [] else [("version".toList, .string r.version)]) ++
    ("upstream".toList, .string r.upstream) ::
    (r.height.map fun n => ("height".toList, .number (utf8 (formatInt n)))).toList ++
    if r.error = [] then [] else [("error".toList, .string r.error)])

theorem memberValues_append (ms ns : List (Bytes × Json)) :
    memberValues (ms ++ ns) = memberValues ms ++ memberValues ns := by
  induction ms with
  | nil => rfl
  | cons m ms ih => rw [List.cons_append, memberValues, memberValues, ih, List.cons_append]

theorem textField_value {name : Str} (h : ReadsBack name) (text : Str) :
    memberValues [textField name text] = [(name, .string text)] := by
  simp only [textField, memberValues, Json.value, h.2, unquote_quoteString]

theorem omitEmpty_value {name : Str} (h : ReadsBack name) (text : Str) :
    memberValues (omitEmpty name text) = if text = [] then [] else [(name, .string text)] := by
  rw [omitEmpty]
  split
  · rfl
  · exact textField_value h text

theorem heightField_value (height : Option ℤ) : memberValues (heightField height) =
    (height.map fun n => ("height".toList, Value.number (utf8 (formatInt n)))).toList := by
  cases height with
  | none => rfl
  | some n => simp only [heightField, Option.map_some, Option.toList_some, memberValues, Json.value,
      height_readsBack.2]

theorem json_value (r : HealthResponse) : r.json.value = r.value := by
  rw [HealthResponse.json, Json.value, HealthResponse.value, ← List.singleton_append,
    ← List.singleton_append (x := textField "upstream".toList r.upstream)]
  simp only [memberValues_append, textField_value status_readsBack, textField_value upstream_readsBack,
    omitEmpty_value version_readsBack, omitEmpty_value error_readsBack, heightField_value]
  rfl

theorem json_fits (r : HealthResponse) : Fits maxNestingDepth 0 r.json := by
  have htext : ∀ {name : Str} (_ : ReadsBack name) (text : Str), ∀ m ∈ [textField name text],
      StringLexeme m.1 ∧ Fits maxNestingDepth 1 m.2 := by
    intro name hname text m hm
    obtain rfl := List.mem_singleton.1 hm
    exact ⟨hname.1, quoteString_lexeme text, (by decide : 1 + 0 ≤ maxNestingDepth)⟩
  have homit : ∀ {name : Str} (_ : ReadsBack name) (text : Str), ∀ m ∈ omitEmpty name text,
      StringLexeme m.1 ∧ Fits maxNestingDepth 1 m.2 := by
    intro name hname text m hm
    rw [omitEmpty] at hm
    split at hm
    · cases hm
    · exact htext hname text m hm
  have hheight : ∀ m ∈ heightField r.height, StringLexeme m.1 ∧ Fits maxNestingDepth 1 m.2 := by
    intro m hm
    simp only [heightField, Option.mem_toList, Option.map_eq_some_iff] at hm
    obtain ⟨n, -, rfl⟩ := hm
    exact ⟨height_readsBack.1, formatInt_number n, (by decide : 1 + 0 ≤ maxNestingDepth)⟩
  refine fits_object (by decide) fun m hm => ?_
  rcases List.mem_append.1 hm with hm | hm
  · rcases List.mem_append.1 hm with hm | hm
    · rcases List.mem_cons.1 hm with rfl | hm
      · exact htext status_readsBack _ _ (List.mem_singleton_self _)
      · exact homit version_readsBack _ m hm
    · rcases List.mem_cons.1 hm with rfl | hm
      · exact htext upstream_readsBack _ _ (List.mem_singleton_self _)
      · exact hheight m hm
  · exact homit error_readsBack _ m hm

/-- A response is read back from its text. -/
theorem parse_response (r : HealthResponse) : ∃ v,
    JsonText.parse maxNestingDepth (marshal r.json) = some v ∧ v.value = r.value :=
  ⟨_, parse_marshal (json_fits r), (value_escaped (json_fits r).1).trans (json_value r)⟩

structure State where
  cached : Option Health := none
  /-- Stored, and the callback not yet called. -/
  untold : Bool := false
  /-- The gauge shows the node as healthy. -/
  gauge : Bool := false
  /-- Answers of the health endpoint. -/
  answers : List Written := []
  /-- What the gauge was read as. -/
  scrapes : List Bool := []

inductive Label where
  /-- A poll that meets a network is stored. -/
  | poll (net : Net)
  | callback
  | health
  | scrape

def step (p : Poller) (version : Str) (s : State) : Label → Option State
  | .poll net => if s.untold then none else some { s with cached := some (p.poll net), untold := true }
  | .callback => if s.untold then some { s with untold := false, gauge := isHealthy s.cached } else none
  | .health => some { s with answers := s.answers ++ [serveHealth p.urlError version s.cached] }
  | .scrape => some { s with scrapes := s.scrapes ++ [s.gauge] }

/-- What was read of a register that held nothing at first and then one value after the other:
each reading shows a state that the register had been in, and never an older one than before. -/
def Readings {α β : Type} (view : Option α → β) (values : List α) (out : List β) : Prop :=
  ∃ ns : List ℕ, ns.Pairwise (· ≤ ·) ∧ (∀ n ∈ ns, n ≤ values.length) ∧
    out = ns.map fun n => view (values.take n).getLast?

section
variable {α β : Type} {view : Option α → β} {values : List α} {out : List β}

theorem readings_nil : Readings view values [] := ⟨[], .nil, by simp, rfl⟩

theorem Readings.store (h : Readings view values out) (v : α) : Readings view (values ++ [v]) out := by
  obtain ⟨ns, hsorted, hbound, rfl⟩ := h
  refine ⟨ns, hsorted, fun n hn => ?_, ?_⟩
  · rw [List.length_append]
    exact (hbound n hn).trans (Nat.le_add_right _ _)
  · apply List.map_congr_left
    intro n hn
    rw [List.take_append_of_le_length (hbound n hn)]

theorem Readings.read (h : Readings view values out) :
    Readings view values (out ++ [view values.getLast?]) := by
  obtain ⟨ns, hsorted, hbound, rfl⟩ := h
  refine ⟨ns ++ [values.length], ?_, ?_, ?_⟩
  · rw [List.pairwise_append]
    refine ⟨hsorted, List.pairwise_singleton _ _, fun n hn k hk => ?_⟩
    rw [List.mem_singleton.1 hk]
    exact hbound n hn
  · rw [List.forall_mem_append]
    exact ⟨hbound, by simp⟩
  · rw [List.map_append, List.map_singleton, List.take_length]

end

def polls (p : Poller) (ls : List Label) : List Health :=
  ls.filterMap fun
    | .poll net => some (p.poll net)
    | _ => none

/-- The polls that the callback was called for. -/
def told (s : State) (hs : List Health) : List Health := if s.untold then hs.dropLast else hs

/-- The cache holds the last poll, the gauge the last one told; answers and scrapes follow. -/
structure Follows (p : Poller) (version : Str) (hs : List Health) (s : State) : Prop where
  cached : s.cached = hs.getLast?
  gauge : s.gauge = isHealthy (told s hs).getLast?
  answers : Readings (serveHealth p.urlError version) hs s.answers
  scrapes : Readings isHealthy (told s hs) s.scrapes

section
variable {p : Poller} {version : Str} {s t : State} {hs : List Health} {l : Label} {ls : List Label}

theorem polls_append (ls ks : List Label) : polls p (ls ++ ks) = polls p ls ++ polls p ks :=
  List.filterMap_append

theorem follows_step (h : Follows p version hs s) (hstep : step p version s l = some t) :
    Follows p version (hs ++ polls p [l]) t := by
  obtain ⟨hcached, hgauge, hanswers, hscrapes⟩ := h
  cases l with
  | poll net =>
    rw [step] at hstep
    split_ifs at hstep with huntold
    cases hstep
    have hold : told s hs = hs := if_neg huntold
    rw [hold] at hgauge hscrapes
    have hnew : ∀ t : State, t.untold = true → told t (hs ++ polls p [.poll net]) = hs := by
      intro t ht
      rw [told, if_pos ht]
      exact List.dropLast_concat
    refine ⟨List.getLast?_concat.symm, ?_, hanswers.store _, ?_⟩
    · rw [hnew _ rfl]
      exact hgauge
    · rw [hnew _ rfl]
      exact hscrapes
  | callback =>
    rw [step] at hstep
    split_ifs at hstep with huntold
    cases hstep
    have hsame : hs ++ polls p [.callback] = hs := List.append_nil hs
    rw [hsame]
    refine ⟨hcached, congrArg isHealthy hcached, hanswers, ?_⟩
    have hold : told s hs = hs.dropLast := if_pos huntold
    rw [hold] at hscrapes
    have hnew : ∀ t : State, t.untold = false → told t hs = hs := by
      intro t ht
      rw [told, ht]
      rfl
    rw [hnew _ rfl]
    rcases List.eq_nil_or_concat hs with rfl | ⟨front, last, rfl⟩
    · exact hscrapes
    · rw [List.concat_eq_append, List.dropLast_concat] at hscrapes
      rw [List.concat_eq_append]
      exact hscrapes.store last
  | health =>
    cases hstep
    have hsame : hs ++ polls p [.health] = hs := List.append_nil hs
    rw [hsame]
    refine ⟨hcached, hgauge, ?_, hscrapes⟩
    rw [hcached]
    exact hanswers.read
  | scrape =>
    cases hstep
    have hsame : hs ++ polls p [.scrape] = hs := List.append_nil hs
    rw [hsame]
    refine ⟨hcached, hgauge, hanswers, ?_⟩
    rw [hgauge]
    exact hscrapes.read

theorem follows_start : Follows p version [] {} := ⟨rfl, rfl, readings_nil, readings_nil⟩

theorem follows_run (h : run (step p version) {} ls = some s) : Follows p version (polls p ls) s := by
  refine run_induction (motive := fun ls s => Follows p version (polls p ls) s) follows_start ?_ h
  intro ls u l t _ hu hstep
  rw [polls_append]
  exact follows_step hu hstep

end

def knownHeight (h : Option Health) : Option ℤ :=
  h.bind fun h => if h.reachable ∧ 0 ≤ h.height then some h.height else none

/-- Why a poll found the node unhealthy. -/
def reason (urlError : Str) (h : Option Health) : Str :=
  (h.bind fun h => h.err.map (PollError.text urlError)).getD []

def numeral : Value → Option ℤ
  | .number raw => parseInt64 (characters raw)
  | _ => none

/-- An answer of the health endpoint tells what is known from a poll: its status says whether the
node was healthy, and the members of its body say whether there is a poll, whether it reached the
node, the height, and what went wrong. -/
structure Tells (urlError version : Str) (h : Option Health) (w : Written) : Prop where
  code : w.status = if isHealthy h then 200 else 503
  body : ∃ v, JsonText.parse maxNestingDepth w.body = some v ∧
    v.value.member "status".toList = some (.string
      (if isHealthy h then "ok" else if h.isSome then "degraded" else "starting").toList) ∧
    v.value.member "version".toList = (if version = [] then none else some (.string version)) ∧
    v.value.member "upstream".toList = some (.string
      (if isHealthy h then "ok" else if h.isSome then "unreachable" else "pending").toList) ∧
    (v.value.member "height".toList).bind numeral = knownHeight h ∧
    v.value.member "error".toList =
      if reason urlError h = [] then none else some (.string (reason urlError h))

/-- A poll that is healthy has no error, and its height is a 64-bit number. -/
structure Health.Sound (h : Health) : Prop where
  height : IsInt64 h.height
  err : h.reachable = true → h.err = none

theorem parseHeight_isInt64 (body : Bytes) : IsInt64 (parseHeight body) := by
  by_cases hn : parseHeight body = heightUnknown
  · rw [hn]
    decide
  · obtain ⟨ms, raw, -, -, -, hvalue⟩ := unmarshalHeight_iff.1 ((parseHeight_eq_iff hn).1 rfl)
    exact parseInt64_isInt64 hvalue

theorem poll_sound (p : Poller) (net : Net) : (p.poll net).Sound := by
  have hunknown : IsInt64 heightUnknown := by decide
  unfold Poller.poll
  split
  · exact ⟨hunknown, nofun⟩
  · split_ifs
    · exact ⟨hunknown, nofun⟩
    · exact ⟨hunknown, nofun⟩
    · exact ⟨parseHeight_isInt64 _, fun _ => rfl⟩

section
variable {r : HealthResponse}

theorem member_status : r.value.member "status".toList = some (.string r.status) := by
  rcases r with ⟨status, version, upstream, height, error⟩
  by_cases hversion : version = [] <;> by_cases herror : error = [] <;> cases height <;>
    simp only [HealthResponse.value, hversion, herror, if_true, if_false] <;> rfl

theorem member_version : r.value.member "version".toList =
    if r.version = [] then none else some (.string r.version) := by
  rcases r with ⟨status, version, upstream, height, error⟩
  by_cases hversion : version = [] <;> by_cases herror : error = [] <;> cases height <;>
    simp only [HealthResponse.value, hversion, herror, if_true, if_false] <;> rfl

theorem member_upstream : r.value.member "upstream".toList = some (.string r.upstream) := by
  rcases r with ⟨status, version, upstream, height, error⟩
  by_cases hversion : version = [] <;> by_cases herror : error = [] <;> cases height <;>
    simp only [HealthResponse.value, hversion, herror, if_true, if_false] <;> rfl

theorem member_error : r.value.member "error".toList =
    if r.error = [] then none else some (.string r.error) := by
  rcases r with ⟨status, version, upstream, height, error⟩
  by_cases hversion : version = [] <;> by_cases herror : error = [] <;> cases height <;>
    simp only [HealthResponse.value, hversion, herror, if_true, if_false] <;> rfl

theorem member_height : r.value.member "height".toList =
    r.height.map fun n => .number (utf8 (formatInt n)) := by
  rcases r with ⟨status, version, upstream, height, error⟩
  by_cases hversion : version = [] <;> by_cases herror : error = [] <;> cases height <;>
    simp only [HealthResponse.value, hversion, herror, if_true, if_false] <;> rfl

end

theorem evaluate_parts (urlError : Str) {h : Option Health} (hsound : ∀ k ∈ h, k.Sound) :
    (evaluate urlError h).2 = (if isHealthy h then 200 else 503) ∧
      (evaluate urlError h).1.status =
        (if isHealthy h then "ok" else if h.isSome then "degraded" else "starting").toList ∧
      (evaluate urlError h).1.upstream =
        (if isHealthy h then "ok" else if h.isSome then "unreachable" else "pending").toList ∧
      (evaluate urlError h).1.height = knownHeight h ∧ (evaluate urlError h).1.error = reason urlError h := by
  cases h with
  | none => exact ⟨rfl, rfl, rfl, rfl, rfl⟩
  | some h =>
    rw [isHealthy, Option.any_some, knownHeight, reason, Option.bind_some, Option.bind_some]
    cases hreachable : h.reachable with
    | false =>
      have hbody : evaluate urlError (some h) = (⟨"degraded".toList, [], "unreachable".toList, none,
          (h.err.map (PollError.text urlError)).getD []⟩, 503) := if_neg (by simp [hreachable])
      rw [hbody]
      exact ⟨rfl, rfl, rfl, rfl, rfl⟩
    | true =>
      have hbody : evaluate urlError (some h) = (⟨"ok".toList, [], "ok".toList,
          if 0 ≤ h.height then some h.height else none, []⟩, 200) := if_pos hreachable
      rw [hbody, (hsound h rfl).err hreachable]
      exact ⟨rfl, rfl, rfl, by simp only [true_and], rfl⟩

/-- The endpoint tells what is known. -/
theorem serveHealth_tells (urlError version : Str) {h : Option Health} (hsound : ∀ k ∈ h, k.Sound) :
    Tells urlError version h (serveHealth urlError version h) := by
  obtain ⟨hcode, hstatus, hupstream, hheight, herror⟩ := evaluate_parts urlError hsound
  obtain ⟨v, hparse, hvalue⟩ := parse_response { (evaluate urlError h).1 with version }
  refine ⟨hcode, v, hparse, ?_, ?_, ?_, ?_, ?_⟩
  · rw [hvalue, member_status, hstatus]
  · rw [hvalue, member_version]
  · rw [hvalue, member_upstream, hupstream]
  · rw [hvalue, member_height, hheight]
    cases h with
    | none => rfl
    | some h =>
      rw [knownHeight, Option.bind_some]
      split
      · rw [Option.map_some, Option.bind_some, numeral, characters_utf8 (formatInt_ascii _),
          parseInt64_formatInt (hsound h rfl).height]
      · rfl
  · rw [hvalue, member_error, herror]

theorem polls_sound {p : Poller} {ls : List Label} : ∀ h ∈ polls p ls, h.Sound := by
  intro h hh
  obtain ⟨l, -, hl⟩ := List.mem_filterMap.1 hh
  cases l with
  | poll net =>
    cases hl
    exact poll_sound p net
  | callback | health | scrape => cases hl

/-- In every run of the poller and its readers, each answer of the health endpoint tells what one
of the polls found, none of them an older poll than the answer before; the gauge shows the last
poll that was told, and the cache the last one that was stored. -/
theorem run_health {p : Poller} {version : Str} {s : State} {ls : List Label}
    (h : run (step p version) {} ls = some s) :
    s.cached = (polls p ls).getLast? ∧ s.gauge = isHealthy (told s (polls p ls)).getLast? ∧
      Readings isHealthy (told s (polls p ls)) s.scrapes ∧
      ∃ ns : List ℕ, ns.Pairwise (· ≤ ·) ∧ (∀ n ∈ ns, n ≤ (polls p ls).length) ∧
        List.Forall₂ (fun n w => Tells p.urlError version ((polls p ls).take n).getLast? w) ns s.answers := by
  obtain ⟨hcached, hgauge, hanswers, hscrapes⟩ := follows_run h
  obtain ⟨ns, hsorted, hbound, heq⟩ := hanswers
  refine ⟨hcached, hgauge, hscrapes, ns, hsorted, hbound, ?_⟩
  rw [heq, List.forall₂_map_right_iff, List.forall₂_same]
  intro n _
  apply serveHealth_tells
  intro k hk
  exact polls_sound k (List.mem_of_mem_take (List.mem_of_getLast? hk))

def unreachableNet : Net where
  accepts _ := true
  send _ := .error ⟨false, some false⟩

def probing : Poller := ⟨⟨utf8 "http://127.0.0.1:8332".toList, []⟩, [], []⟩

/-- The endpoint is asked before there is a poll, and again before the gauge has changed. -/
def earlyReaders : List Label := [.health, .poll unreachableNet, .health, .scrape, .callback, .scrape]

theorem run_health_earlyReaders : ∃ s, run (step probing "1.0".toList) {} earlyReaders = some s ∧
    s.cached = some { err := some (.forward .unavailable) } ∧
    ∃ ns : List ℕ, ns.Pairwise (· ≤ ·) ∧ (∀ n ∈ ns, n ≤ (polls probing earlyReaders).length) ∧
      List.Forall₂ (fun n w => Tells probing.urlError "1.0".toList
        ((polls probing earlyReaders).take n).getLast? w) ns s.answers := by
  obtain ⟨hcached, -, -, hanswers⟩ := @run_health probing "1.0".toList _ earlyReaders rfl
  exact ⟨_, rfl, hcached, hanswers⟩

end BitcoinRpcOperator.HealthPolling
