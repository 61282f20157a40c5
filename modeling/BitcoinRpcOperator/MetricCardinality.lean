import BitcoinRpcOperator.ErrorReplies
import BitcoinRpcOperator.RequestMetrics

/-!
# How many series the metrics hold

The labels of both counters come out of a finite stock that the configuration of the proxy
determines: a decision with a status between 200 and 599, and the methods that are named in
bodies below the limit. The second stock is large, and a client can draw as much of it as
the limit lets pass.
-/

namespace BitcoinRpcOperator.MetricCardinality
open Text JsonText RpcRequests ProxyHandler ProxyHandler.Handler RequestOutcomes Dictionaries
open RequestMetrics

def statusSpace : Finset (Str × Str) :=
  [Decision.allowed, .denied].toFinset.image decisionText ×ˢ (Finset.Icc 200 599).image itoa

/-- The labels the calls of a body would be counted under. -/
def bodyLabels (body : Bytes) : List Str :=
  match RpcRequests.parse body with
  | some env => env.calls.map methodLabel
  | none => []

/-- The labels of all calls in bodies below the limit. -/
def methodSpace (h : Handler) : Set Str :=
  ⋃ body ∈ {body : Bytes | body.length ≤ h.maxBody}, {method | method ∈ bodyLabels body}

theorem bytes_finite : Finite UInt8 :=
  Finite.of_injective UInt8.toBitVec fun _ _ h => UInt8.toBitVec_inj.1 h

theorem methodSpace_finite (h : Handler) : (methodSpace h).Finite := by
  have hbytes := bytes_finite
  apply (List.finite_length_le UInt8 h.maxBody).biUnion
  intro body _
  exact (bodyLabels body).finite_toSet

theorem mem_methodSpace {h : Handler} {body : Bytes} (hlarge : ¬ h.maxBody < body.length)
    {env : Envelope} (hparse : RpcRequests.parse body = some env) {call : Call}
    (hcall : call ∈ env.calls) : methodLabel call ∈ methodSpace h := by
  have hlabel : methodLabel call ∈ bodyLabels body := by
    rw [bodyLabels, hparse]
    exact List.mem_map_of_mem hcall
  exact Set.mem_biUnion (not_lt.1 hlarge : body.length ≤ h.maxBody) hlabel

/-- The bound that a configuration puts on the number of series. -/
noncomputable def seriesBound (h : Handler) : ℕ := statusSpace.card + (methodSpace h).ncard

/-- The labels of a record are in stock. -/
def InStock (h : Handler) : Record → Prop
  | .request _ status => 200 ≤ status ∧ status ≤ 599
  | .deniedMethod method => method ∈ methodSpace h
  | .duration => True

/-- So are those of everything recorded in an exchange. -/
def Stocked (h : Handler) (x : Exchange) : Prop := ∀ t ∈ x.recorded, InStock h t

section
variable {h : Handler} {x : Exchange}

theorem empty_stocked : Stocked h {} := nofun

theorem record_stocked {t : Record} (ht : InStock h t) (hx : Stocked h x) :
    Stocked h (h.record t x) := by
  unfold record
  split
  · intro u hu
    rcases List.mem_append.1 hu with hu | hu
    · exact hx u hu
    · rw [List.mem_singleton.1 hu]
      exact ht
  · exact hx

theorem write_stocked (status : ℕ) (contentType : Str) (body : Bytes) (hx : Stocked h x) :
    Stocked h (write status contentType body x) := by
  intro t ht
  rw [write_recorded] at ht
  exact hx t ht

theorem reject_stocked {status : ℕ} (hlo : 200 ≤ status) (hhi : status ≤ 599) (body : Json) :
    Stocked h (h.reject status body {}) := by
  apply write_stocked
  exact record_stocked ⟨hlo, hhi⟩ empty_stocked

theorem record_denied_stocked (ms : List Str) (hms : ∀ m ∈ ms, m ∈ methodSpace h)
    (hx : Stocked h x) : Stocked h (ms.foldl (fun x m => h.record (.deniedMethod m) x) x) := by
  induction ms generalizing x with
  | nil => exact hx
  | cons m ms ih =>
    apply ih fun n hn => hms n (List.mem_cons_of_mem _ hn)
    exact record_stocked (hms m List.mem_cons_self) hx

/-- The methods of a denial are labels of its calls. -/
theorem mem_denyBody {env : Envelope} {m : Str} (hm : m ∈ (h.denyBody env).2) :
    ∃ call ∈ env.calls, methodLabel call = m := by
  unfold denyBody at hm
  split at hm
  · obtain ⟨call, hcall, rfl⟩ := List.mem_map.1 hm
    exact ⟨call, (List.mem_filter.1 hcall).1, rfl⟩
  · rename_i hbatch
    obtain ⟨call, hone⟩ := List.length_eq_one_iff.1 (env.single (by simpa using hbatch))
    rw [hone] at hm ⊢
    exact ⟨call, List.mem_singleton_self call, (List.mem_singleton.1 hm).symm⟩

theorem deny_stocked {env : Envelope} (henv : ∀ call ∈ env.calls, methodLabel call ∈ methodSpace h) :
    Stocked h (h.deny env {}) := by
  apply write_stocked
  apply record_denied_stocked
  · intro m hm
    obtain ⟨call, hcall, rfl⟩ := mem_denyBody hm
    exact henv call hcall
  · exact record_stocked ⟨by omega, by omega⟩ empty_stocked

theorem forward_stocked {net : Net} (hnet : StandardStatuses net) (r : Request) (env : Envelope) :
    Stocked h (h.forward net r env {}) := by
  have hstart : Stocked h { forwarded := [⟨r.path, r.header, env.raw⟩] } := nofun
  unfold forward
  cases hresult : h.client.forward net r.path r.header env.raw with
  | error e =>
    apply write_stocked
    apply record_stocked _ hstart
    constructor <;> split <;> omega
  | ok resp =>
    apply write_stocked
    apply record_stocked _ hstart
    exact forward_status hnet hresult

theorem serve_stocked {net : Net} (hnet : StandardStatuses net) (r : Request) :
    Stocked h (h.serve net r {}) := by
  unfold serve
  cases hread : h.readBody r with
  | error e =>
    cases e with
    | tooLarge => exact reject_stocked (by omega) (by omega) _
    | other => exact reject_stocked (by omega) (by omega) _
  | ok body =>
    have hlarge : ¬ h.maxBody < body.length := by
      unfold readBody at hread
      split_ifs at hread with hlarge hinterrupted
      obtain rfl := Except.ok.inj hread
      exact hlarge
    dsimp only
    cases hparse : RpcRequests.parse body with
    | none => exact reject_stocked (by omega) (by omega) _
    | some env =>
      dsimp only
      split
      · exact deny_stocked fun call hcall => mem_methodSpace hlarge hparse hcall
      · exact forward_stocked hnet r env

theorem serveHTTP_stocked {net : Net} (hnet : StandardStatuses net) (r : Request) :
    Stocked h (h.serveHTTP net r) := record_stocked trivial (serve_stocked hnet r)

theorem requestLabels_mem (hx : Stocked h x) {label : Str × Str}
    (hlabel : label ∈ requestLabels x.recorded) : label ∈ statusSpace := by
  obtain ⟨t, ht, hvalue⟩ := List.mem_filterMap.1 hlabel
  cases t with
  | request decision status =>
    obtain rfl := Option.some.inj hvalue
    obtain ⟨hlo, hhi⟩ := hx _ ht
    apply Finset.mem_product.2
    constructor
    · apply Finset.mem_image_of_mem
      cases decision <;> decide
    · exact Finset.mem_image_of_mem itoa (Finset.mem_Icc.2 ⟨hlo, hhi⟩)
  | deniedMethod method => cases hvalue
  | duration => cases hvalue

theorem deniedLabels_mem (hx : Stocked h x) {method : Str}
    (hmethod : method ∈ deniedLabels x.recorded) : method ∈ methodSpace h := by
  obtain ⟨t, ht, hvalue⟩ := List.mem_filterMap.1 hmethod
  cases t with
  | request decision status => cases hvalue
  | deniedMethod m =>
    obtain rfl := Option.some.inj hvalue
    exact hx _ ht
  | duration => cases hvalue

end

/-- After any sequence of requests the counters hold no more series than the configuration
has labels in stock. -/
theorem series_le_seriesBound (h : Handler) (arrivals : List Arrival)
    (hnet : ∀ a ∈ arrivals, StandardStatuses a.net) :
    (serveAll h newMetrics arrivals).series ≤ seriesBound h := by
  have hstocked : ∀ a ∈ arrivals, Stocked h (a.served h) := fun a ha =>
    serveHTTP_stocked (hnet a ha) a.request
  obtain ⟨hrequests, hdenied⟩ := serveAll_counts h arrivals newMetrics
  have hstatuses : (serveAll h newMetrics arrivals).requests.size ≤ statusSpace.card := by
    apply Counter.size_le_card
    intro label hlabel
    rw [hrequests, Counter.mem_keys_incAll] at hlabel
    rcases hlabel with hlabel | hlabel
    · cases hlabel
    · obtain ⟨a, ha, hlabel⟩ := List.mem_flatMap.1 hlabel
      exact requestLabels_mem (hstocked a ha) hlabel
  have hmethods : (serveAll h newMetrics arrivals).denied.size ≤ (methodSpace h).ncard := by
    rw [Set.ncard_eq_toFinset_card _ (methodSpace_finite h)]
    apply Counter.size_le_card
    intro method hmethod
    rw [hdenied, Counter.mem_keys_incAll] at hmethod
    rw [Set.Finite.mem_toFinset]
    rcases hmethod with hmethod | hmethod
    · cases hmethod
    · obtain ⟨a, ha, hmethod⟩ := List.mem_flatMap.1 hmethod
      exact deniedLabels_mem (hstocked a ha) hmethod
  exact Nat.add_le_add hstatuses hmethods

/-- The number of series is bounded by the configuration alone. -/
theorem series_bounded : ∃ bound : Handler → ℕ, ∀ (h : Handler) (arrivals : List Arrival),
    (∀ a ∈ arrivals, StandardStatuses a.net) →
      (serveAll h newMetrics arrivals).series ≤ bound h :=
  ⟨seriesBound, series_le_seriesBound⟩

theorem series_bounded_refusedBatch : ∃ bound : Handler → ℕ,
    (serveAll countingHandler newMetrics [refusedBatch, uptimeCall]).series = 4 ∧
      (serveAll countingHandler newMetrics [refusedBatch, uptimeCall]).series ≤
        bound countingHandler := by
  obtain ⟨bound, hbound⟩ := series_bounded
  refine ⟨bound, ?_, ?_⟩
  · decide +kernel
  · exact hbound countingHandler _ standard_arrivals

def callBody (method : Str) : Bytes := marshal (.object [textField "method".toList method])

theorem dropSpaces_inert {one : UInt8 → Bool} {two : UInt8 → UInt8 → Bool}
    {three : UInt8 → UInt8 → UInt8 → Bool} {a : UInt8} (hone : one a = false)
    (htwo : ∀ b, two a b = false) (hthree : ∀ b c, three a b c = false) (bs : Bytes) :
    dropSpaces one two three (a :: bs) = a :: bs := by
  match bs with
  | [] => simp [dropSpaces, hone]
  | [b] => simp [dropSpaces, hone, htwo]
  | b :: c :: rest => simp [dropSpaces, hone, htwo, hthree]

/-- A text in braces has no white space around it. -/
theorem trimSpace_braced (mid : Bytes) :
    trimSpace (byte '{' :: mid ++ [byte '}']) = byte '{' :: mid ++ [byte '}'] := by
  have hfront : dropSpaces isSpace1 isSpace2 isSpace3 (byte '{' :: mid ++ [byte '}']) =
      byte '{' :: mid ++ [byte '}'] := by
    apply dropSpaces_inert
    · decide
    · intro b
      have hlead : ¬ (0xC2 : UInt8) ≤ byte '{' := by decide
      simp [isSpace2, rune2, hlead]
    · intro b c
      have hlead : ¬ (0xE0 : UInt8) ≤ byte '{' := by decide
      simp [isSpace3, rune3, hlead]
  have hback : dropSpaces isSpace1 (fun a b => isSpace2 b a) (fun a b c => isSpace3 c b a)
      (byte '}' :: (byte '{' :: mid).reverse) = byte '}' :: (byte '{' :: mid).reverse := by
    apply dropSpaces_inert
    · decide
    · intro b
      cases hrune : rune2 b (byte '}') with
      | none => simp [isSpace2, hrune]
      | some r => exact absurd (rune2_tail hrune) (by decide)
    · intro b c
      cases hrune : rune3 c b (byte '}') with
      | none => simp [isSpace3, hrune]
      | some r => exact absurd (rune3_tail hrune).2 (by decide)
  rw [trimSpace, hfront, List.reverse_append, List.reverse_singleton, List.singleton_append, hback,
    List.reverse_cons, List.reverse_reverse]

theorem parse_callBody (method : Str) : ∃ env, RpcRequests.parse (callBody method) = some env ∧
    env.calls = [{ method }] := by
  have hname : StringLexeme (utf8 "method".toList) ∧ escapeHtml (utf8 "method".toList) =
      utf8 "method".toList := ⟨lexeme_of_plain (by decide +kernel), by decide +kernel⟩
  have hfits : Fits maxNestingDepth 0 (.object [textField "method".toList method]) := by
    apply fits_object (by decide)
    intro m hm
    rw [List.mem_singleton.1 hm]
    have hdepth : 0 + 1 + (Json.string (quoteString method)).depth ≤ maxNestingDepth := by
      rw [Json.depth]
      decide
    exact ⟨hname.1, quoteString_lexeme method, hdepth⟩
  have hvalue : bodyValue (callBody method) =
      some (.object [(utf8 "method".toList, .string (escapeHtml (quoteString method)))]) := by
    have htrim : trimSpace (callBody method) = callBody method := trimSpace_braced _
    rw [bodyValue, htrim, callBody, parse_marshal hfits]
    simp only [textField, Json.mapStrings, Json.mapMembers, hname.2]
  have hcall : parseElement
      (.object [(utf8 "method".toList, .string (escapeHtml (quoteString method)))]) =
        { method } := by
    have hfield : ∀ v : Json, structField "jsonrpc".toList [(utf8 "method".toList, v)] = none ∧
        structField "method".toList [(utf8 "method".toList, v)] = some v ∧
        structField "id".toList [(utf8 "method".toList, v)] = none := fun v =>
      ⟨rfl, rfl, rfl⟩
    obtain ⟨hversion, hmethod, hid⟩ := hfield (.string (escapeHtml (quoteString method)))
    rw [parseElement, hversion, hmethod, hid, extractString,
      unquote_escapeHtml (quoteString_lexeme method), unquote_quoteString]
    rfl
  refine ⟨⟨false, [{ method }], callBody method, fun _ => rfl⟩, ?_, rfl⟩
  simp only [RpcRequests.parse, hvalue, Option.bind_some, hcall, Option.bind_eq_bind]

/-- As many series as there are refused methods whose calls fit below the limit: what bounds
their number is the limit, not the policy. -/
theorem length_le_denied_size {h : Handler} (hrec : h.recording = true) (hfilter : h.filter = true)
    {net : Net} (hnet : StandardStatuses net) (path : Bytes) (header : Header) {methods : List Str}
    (hdistinct : methods.Nodup)
    (hrefused : ∀ m ∈ methods, m ≠ [] ∧ m ∉ h.allow.allowed ∧ (callBody m).length ≤ h.maxBody) :
    methods.length ≤ (serveAll h newMetrics (methods.map fun m =>
      ⟨net, fullRequest path header (callBody m)⟩)).denied.size := by
  apply Counter.length_le_size _ hdistinct
  intro m hm
  obtain ⟨hsome, hnot, hfit⟩ := hrefused m hm
  rw [(serveAll_counts h _ newMetrics).2, Counter.mem_keys_incAll]
  right
  apply List.mem_flatMap.2
  refine ⟨_, List.mem_map_of_mem hm, ?_⟩
  obtain ⟨env, hparse, hcalls⟩ := parse_callBody m
  have hlabels : deniedLabels (h.serveHTTP net (fullRequest path header (callBody m))).recorded =
      [m] := by
    rw [(serveHTTP_accounted hrec hnet).denied, refusedCalls, if_pos ⟨hfit, rfl, hfilter⟩]
    simp [fullRequest, hparse, hcalls, NotAllowed, hnot, methodLabel, hsome]
  exact hlabels ▸ List.mem_singleton_self m

end BitcoinRpcOperator.MetricCardinality
