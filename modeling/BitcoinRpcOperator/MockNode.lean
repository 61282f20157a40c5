import BitcoinRpcOperator.Base64Text
import BitcoinRpcOperator.HealthPolling
import BitcoinRpcOperator.RequestBodies
import BitcoinRpcOperator.RequestOutcomes

/-!
# The proxy in front of the mock node

`dev/mock-bitcoind`: how it reads a request, what it dispatches and how it replies. The mock
stands in for the network of the proxy, so that what a client of the proxy gets can be followed
from end to end. It answers only POST requests, and the proxy sends no others.
-/

namespace BitcoinRpcOperator.MockNode
open Text JsonText RpcRequests ProxyHandler ProxyHandler.Handler RequestOutcomes HealthProbe HealthPolling

/-- `rpcReq`; the parameters are never looked at. -/
structure RpcReq where
  jsonrpc : Option Json := none
  id : Option Json := none
  method : Str := []

/-- A Go string decoded from a value: null leaves it as it is. -/
def decodeString (acc : Str) : Json → Option Str
  | .null => some acc
  | .string raw => some (unquote raw)
  | .bool _ | .number _ | .array _ | .object _ => none

def decodeMethod (acc : Str) (ms : List (Bytes × Json)) : Option Str :=
  (ms.filter (isField "method".toList)).foldlM (fun acc m => decodeString acc m.2) acc

/-- `json.Unmarshal` into an `rpcReq`. -/
def unmarshalReq : Json → Option RpcReq
  | .null => some {}
  | .object ms => (decodeMethod [] ms).map fun method =>
    ⟨structField "jsonrpc".toList ms, structField "id".toList ms, method⟩
  | .bool _ | .number _ | .string _ | .array _ => none

def unmarshalBatch : Option Json → Option (List RpcReq)
  | some (.array es) => es.mapM unmarshalReq
  | _ => none

/-- What `handle` looks at to tell a batch. -/
def startsBatch (body : Bytes) : Bool := body.head? == some (byte '[')

/-- The requests that are dispatched for a body, unless it does not parse. -/
def requests (body : Bytes) : Option (List RpcReq) :=
  if startsBatch body then unmarshalBatch (JsonText.parse maxNestingDepth body)
  else ((JsonText.parse maxNestingDepth body).bind unmarshalReq).map fun req => [req]

def cannedHeight : ℤ := 901234

def cannedUptime : ℤ := 123456

def int64 (n : ℤ) : Json := .number (utf8 (formatInt n))

/-- The members of `getblockchaininfo`, in the order in which `json.Marshal` writes a map. -/
def blockchainInfo : Json :=
  .object [textField "bestblockhash".toList
      "00000000000000000000a1b2c3d4e5f60718293a4b5c6d7e8f90a1b2c3d4e5f6".toList,
    (utf8 "blocks".toList, int64 cannedHeight), textField "chain".toList "main".toList,
    (utf8 "difficulty".toList, .number (utf8 "83126997340024.6".toList)),
    (utf8 "headers".toList, int64 cannedHeight), (utf8 "initialblockdownload".toList, .bool false),
    (utf8 "pruned".toList, .bool false),
    (utf8 "verificationprogress".toList, .number (utf8 "0.9999998".toList))]

/-- The result of a method that the mock knows. -/
def canned (method : Str) : Option Json :=
  if method = "getblockcount".toList then some (int64 cannedHeight)
  else if method = "getblockchaininfo".toList then some blockchainInfo
  else if method = "ping".toList then some .null
  else if method = "uptime".toList then some (int64 cannedUptime)
  else if method = "stop".toList then some (.string (quoteString "Bitcoin Core stopping".toList))
  else none

def versionField : Bytes × Json := textField "jsonrpc".toList "2.0".toList

/-- `successReply`, with its members in the order of their names. -/
def successReply (version : Version) (id : Option Json) (result : Json) : Json :=
  let id := (utf8 "id".toList, id.getD .null)
  let result := (utf8 "result".toList, result)
  match version with
  | .v2 => .object [id, versionField, result]
  | .v1Legacy => .object [(utf8 "error".toList, .null), id, result]

def errorReply (version : Version) (id : Option Json) (code : ErrorCode) (msg : Str) : Json :=
  let id := (utf8 "id".toList, id.getD .null)
  let error := (utf8 "error".toList, errorObject code msg)
  match version with
  | .v2 => .object [error, id, versionField]
  | .v1Legacy => .object [error, id, (utf8 "result".toList, .null)]

def RpcReq.version (req : RpcReq) : Version := detectVersion req.jsonrpc

/-- `dispatch`: the reply, and the error if there is one. -/
def dispatch (req : RpcReq) : Json × Option ErrorCode :=
  match canned req.method with
  | some result => (successReply req.version req.id result, none)
  | none => (errorReply req.version req.id .methodNotFound "Method not found".toList, some .methodNotFound)

def httpStatus : ErrorCode → ℕ
  | .methodNotFound => 404
  | .invalidRequest | .parseError => 400
  | .internalError => 500

def jsonHeader : Header := [("Content-Type".toList, [jsonContentType])]

def writeReply (status : ℕ) (reply : Json) : Response := ⟨status, jsonHeader, marshal reply⟩

def parseErrorReply : Response :=
  writeReply 500 (errorReply .v1Legacy none .parseError "Parse error".toList)

def answerSingle (req : RpcReq) : Response :=
  let (reply, err) := dispatch req
  writeReply (if req.version = .v2 then 200 else (err.map httpStatus).getD 200) reply

/-- The answer to a batch; the encoder ends it with a newline. -/
def answerBatch (reqs : List RpcReq) : Response :=
  ⟨200, jsonHeader, marshal (.array (reqs.map fun req => (dispatch req).1)) ++ [byte '\n']⟩

/-- `authOK`; an empty `rpcAuth` asks for nothing. -/
def authOk (rpcAuth : Str) (header : Header) : Bool :=
  rpcAuth = [] || header.get "Authorization".toList = "Basic ".toList ++ base64 (utf8 rpcAuth)

/-- `http.Error` with status 401. -/
def unauthorized : Response :=
  ⟨401, [("Content-Type".toList, ["text/plain; charset=utf-8".toList]),
    ("Www-Authenticate".toList, ["Basic realm=\"jsonrpc\"".toList]),
    ("X-Content-Type-Options".toList, ["nosniff".toList])], utf8 "401 Unauthorized\n".toList⟩

/-- `handle`, for a POST request whose body can be read. -/
def handle (rpcAuth : Str) (req : HttpRequest) : Response :=
  if !authOk rpcAuth req.header then unauthorized
  else match requests req.body with
    | none => parseErrorReply
    | some reqs =>
      if startsBatch req.body then answerBatch reqs else answerSingle (reqs.headD {})

/-- The requests that are dispatched while a request is handled. -/
def dispatched (rpcAuth : Str) (req : HttpRequest) : List RpcReq :=
  if authOk rpcAuth req.header then (requests req.body).getD [] else []

theorem handle_status (rpcAuth : Str) (req : HttpRequest) :
    200 ≤ (handle rpcAuth req).status ∧ (handle rpcAuth req).status ≤ 599 := by
  have hsingle : ∀ req, 200 ≤ (answerSingle req).status ∧ (answerSingle req).status ≤ 599 := by
    intro req
    have hstatus : (answerSingle req).status =
        if req.version = .v2 then 200 else ((dispatch req).2.map httpStatus).getD 200 := rfl
    rw [hstatus]
    split
    · omega
    · cases (dispatch req).2 with
      | none => exact ⟨by decide, by decide⟩
      | some code => cases code <;> exact ⟨by decide, by decide⟩
  unfold handle
  split
  · exact ⟨by decide, by decide⟩
  · split
    · exact ⟨by decide, by decide⟩
    · split
      · exact ⟨(by decide : 200 ≤ 200), (by decide : 200 ≤ 599)⟩
      · exact hsingle _

theorem handle_digits (rpcAuth : Str) (req : HttpRequest) : (handle rpcAuth req).status ≤ 999 :=
  (handle_status rpcAuth req).2.trans (by omega)

theorem handle_final (rpcAuth : Str) (req : HttpRequest) : (handle rpcAuth req).status < 100 ∨
    (handle rpcAuth req).status = 101 ∨ 200 ≤ (handle rpcAuth req).status :=
  .inr (.inr (handle_status rpcAuth req).1)

/-- The mock as the network of a proxy whose URLs make requests. -/
def mockNet (rpcAuth : Str) : Net where
  accepts _ := true
  send req := .ok ⟨(handle rpcAuth req).status, (handle rpcAuth req).headers,
    .ok (handle rpcAuth req).body, handle_digits rpcAuth req, handle_final rpcAuth req⟩

/-- A dispatched request as the proxy would see it. -/
def RpcReq.call (req : RpcReq) : Call := ⟨req.method, req.id, req.version⟩

section
variable {acc method : Str} {m : Bytes × Json} {ms : List (Bytes × Json)} {body : Bytes}
  {reqs : List RpcReq} {env : Envelope}

theorem decodeMethod_cons : decodeMethod acc (m :: ms) =
    if isField "method".toList m then (decodeString acc m.2).bind fun acc => decodeMethod acc ms
    else decodeMethod acc ms := by
  rw [decodeMethod, List.filter_cons]
  split <;> rfl

/-- Where the proxy finds a method in the last member, so does the node. -/
theorem decodeMethod_eq (h : decodeMethod acc ms = some method) :
    (structField "method".toList ms = none → method = acc) ∧
      ∀ raw, structField "method".toList ms = some (.string raw) → method = unquote raw := by
  induction ms generalizing acc with
  | nil => exact ⟨fun _ => (Option.some.inj h).symm, nofun⟩
  | cons m ms ih =>
    rw [decodeMethod_cons] at h
    rw [structField_cons]
    cases hm : isField "method".toList m with
    | false =>
      rw [hm, if_neg Bool.false_ne_true] at h
      simpa using ih h
    | true =>
      rw [hm, if_pos rfl] at h
      obtain ⟨next, hnext, hrest⟩ := Option.bind_eq_some_iff.1 h
      obtain ⟨hnone, hsome⟩ := ih hrest
      cases hfield : structField "method".toList ms with
      | some v => exact ⟨nofun, fun raw hraw => hsome raw (hfield.trans hraw)⟩
      | none =>
        refine ⟨by simp, fun raw hraw => ?_⟩
        have hvalue : m.2 = .string raw := by simpa using hraw
        rw [hnone hfield]
        rw [hvalue, decodeString] at hnext
        exact (Option.some.inj hnext).symm

theorem extractString_ne_nil {v : Option Json} (h : extractString v ≠ []) :
    ∃ raw, v = some (.string raw) := by
  cases v with
  | none => exact absurd rfl h
  | some v =>
    cases v with
    | string raw => exact ⟨raw, rfl⟩
    | null | bool _ | number _ | array _ | object _ => exact absurd rfl h

/-- A request that the proxy finds a method in is dispatched as it was read. -/
theorem unmarshalReq_call {v : Json} {req : RpcReq} (h : unmarshalReq v = some req)
    (hmethod : (parseElement v).method ≠ []) : req.call = parseElement v := by
  cases v with
  | object ms =>
    obtain ⟨method, hdecode, rfl⟩ := Option.map_eq_some_iff.1 h
    obtain ⟨raw, hraw⟩ := extractString_ne_nil hmethod
    have hsame : method = extractString (structField "method".toList ms) := by
      rw [(decodeMethod_eq hdecode).2 raw hraw, hraw]
      rfl
    rw [RpcReq.call, hsame]
    rfl
  | null | bool _ | number _ | string _ | array _ => exact absurd rfl hmethod

theorem bodyValue_container {v : Json} (h : JsonText.parse maxNestingDepth body = some v)
    (hcontainer : isContainer v) : bodyValue body = some v := by
  obtain ⟨htext, hdepth⟩ := parse_eq_some_iff.1 h
  exact bodyValue_isRequest ⟨htext, hdepth, hcontainer⟩

theorem mapM_unmarshal {es : List Json} (h : es.mapM unmarshalReq = some reqs)
    (hmethod : ∀ call ∈ es.map parseElement, call.method ≠ []) :
    reqs.map RpcReq.call = es.map parseElement := by
  induction es generalizing reqs with
  | nil =>
    obtain rfl : [] = reqs := Option.some.inj h
    rfl
  | cons v es ih =>
    rw [List.mapM_cons] at h
    obtain ⟨req, hreq, h⟩ := Option.bind_eq_some_iff.1 h
    obtain ⟨rest, hrest, h⟩ := Option.bind_eq_some_iff.1 h
    obtain rfl := Option.some.inj h
    rw [List.map_cons, List.forall_mem_cons] at hmethod
    rw [List.map_cons, List.map_cons, unmarshalReq_call hreq hmethod.1, ih hrest hmethod.2]

/-- A body that is null is no request to the proxy. -/
theorem parse_null_body (h : JsonText.parse maxNestingDepth body = some .null) :
    RpcRequests.parse body = none := by
  have hspelled : Spelled [.null] body := (parse_eq_some_iff.1 h).1.spelled
  have hvalue : bodyValue body = some .null := by
    cases hspelled with
    | @cons ws rest _ _ hws hrest =>
      cases hrest with
      | nil hback =>
        have hsolid : ∀ b ∈ [byte 'n', byte 'l'], b.toNat < 0x80 ∧ isSpace1 b = false := by decide
        have htrim := trimSpace_pad (whiteSpace_of_blanks hws) (whiteSpace_of_blanks hback)
          ⟨(hsolid (byte 'n') (by simp)).1, (hsolid _ (by simp)).2⟩
          ⟨(hsolid (byte 'l') (by simp)).1, (hsolid _ (by simp)).2⟩ [byte 'u', byte 'l']
        have hword : Token.null.lexeme = byte 'n' :: [byte 'u', byte 'l'] ++ [byte 'l'] := rfl
        rw [bodyValue, ← List.append_assoc, hword, htrim]
        exact parse_null
  rw [RpcRequests.parse, hvalue]
  rfl

/-- What the node dispatches for a body is what the proxy read in it, in order, where the proxy
found a method in every call. -/
theorem requests_calls (henv : RpcRequests.parse body = some env)
    (hmethod : ∀ call ∈ env.calls, call.method ≠ []) (hreqs : requests body = some reqs) :
    reqs.map RpcReq.call = env.calls ∧ startsBatch body = env.isBatch := by
  unfold requests at hreqs
  cases hbatch : startsBatch body with
  | true =>
    rw [hbatch, if_pos rfl] at hreqs
    cases hparse : JsonText.parse maxNestingDepth body with
    | none =>
      rw [hparse] at hreqs
      cases hreqs
    | some v =>
      rw [hparse] at hreqs
      cases v with
      | array es =>
        have hvalue := bodyValue_container hparse rfl
        rw [RpcRequests.parse, hvalue] at henv
        cases henv
        exact ⟨mapM_unmarshal hreqs hmethod, rfl⟩
      | null | bool _ | number _ | string _ | object _ => cases hreqs
  | false =>
    rw [hbatch, if_neg Bool.false_ne_true] at hreqs
    obtain ⟨req, hreq, rfl⟩ := Option.map_eq_some_iff.1 hreqs
    obtain ⟨v, hparse, hreq⟩ := Option.bind_eq_some_iff.1 hreq
    cases v with
    | object ms =>
      have hvalue := bodyValue_container hparse rfl
      rw [RpcRequests.parse, hvalue] at henv
      cases henv
      exact ⟨congrArg (· :: []) (unmarshalReq_call hreq (hmethod _ (List.mem_singleton_self _))), rfl⟩
    | null =>
      rw [parse_null_body hparse] at henv
      cases henv
    | bool _ | number _ | string _ | array _ => cases hreq

end

def replyTo (c : Call) : Json :=
  match canned c.method with
  | some result => successReply c.version c.id result
  | none => errorReply c.version c.id .methodNotFound "Method not found".toList

/-- A reply is for its call: in the framing of its version, with its id, and with the canned
result of its method or the error that there is none. -/
structure Replies (c : Call) (reply : Value) : Prop where
  id : reply.member "id".toList = some c.idValue
  version : reply.member "jsonrpc".toList = if c.version = .v2 then some (.string "2.0".toList) else none
  result : ∀ result, canned c.method = some result → reply.member "result".toList = some result.value
  error : canned c.method = none → (reply.member "error".toList).bind (Value.member "code".toList) =
    some (.number (utf8 ErrorCode.methodNotFound.text))

theorem dispatch_reply (req : RpcReq) : (dispatch req).1 = replyTo req.call := by
  rw [dispatch, replyTo]
  have hmethod : req.call.method = req.method := rfl
  rw [hmethod]
  cases canned req.method <;> rfl

theorem replyTo_replies (c : Call) : Replies c (replyTo c).value := by
  cases hcanned : canned c.method with
  | some result =>
    have hreply : replyTo c = successReply c.version c.id result := by rw [replyTo, hcanned]
    rw [hreply]
    cases hversion : c.version with
    | v2 =>
      have hvalue : (successReply .v2 c.id result).value = .object [("id".toList, c.idValue),
          ("jsonrpc".toList, .string "2.0".toList), ("result".toList, result.value)] := by
        simp only [successReply, versionField, textField, Json.value, memberValues, id_readsBack.2,
          jsonrpc_readsBack.2, result_readsBack.2, unquote_quoteString, idValue_eq]
      rw [hvalue]
      refine ⟨rfl, by rw [hversion]; rfl, fun r hr => ?_, fun h => ?_⟩
      · obtain rfl := Option.some.inj (hcanned.symm.trans hr)
        rfl
      · rw [hcanned] at h
        cases h
    | v1Legacy =>
      have hvalue : (successReply .v1Legacy c.id result).value = .object [("error".toList, .null),
          ("id".toList, c.idValue), ("result".toList, result.value)] := by
        simp only [successReply, Json.value, memberValues, id_readsBack.2, error_readsBack.2,
          result_readsBack.2, idValue_eq]
      rw [hvalue]
      refine ⟨rfl, by rw [hversion]; rfl, fun r hr => ?_, fun h => ?_⟩
      · obtain rfl := Option.some.inj (hcanned.symm.trans hr)
        rfl
      · rw [hcanned] at h
        cases h
  | none =>
    have hreply : replyTo c =
        errorReply c.version c.id .methodNotFound "Method not found".toList := by rw [replyTo, hcanned]
    rw [hreply]
    cases hversion : c.version with
    | v2 =>
      have hvalue : (errorReply .v2 c.id .methodNotFound "Method not found".toList).value =
          .object [("error".toList, errorValue .methodNotFound "Method not found".toList),
            ("id".toList, c.idValue), ("jsonrpc".toList, .string "2.0".toList)] := by
        simp only [errorReply, versionField, textField, Json.value, memberValues, id_readsBack.2,
          jsonrpc_readsBack.2, error_readsBack.2, unquote_quoteString, idValue_eq, errorObject_value]
      rw [hvalue]
      refine ⟨rfl, by rw [hversion]; rfl, fun r hr => ?_, fun _ => rfl⟩
      rw [hcanned] at hr
      cases hr
    | v1Legacy =>
      have hvalue : (errorReply .v1Legacy c.id .methodNotFound "Method not found".toList).value =
          .object [("error".toList, errorValue .methodNotFound "Method not found".toList),
            ("id".toList, c.idValue), ("result".toList, .null)] := by
        simp only [errorReply, Json.value, memberValues, id_readsBack.2, result_readsBack.2,
          error_readsBack.2, idValue_eq, errorObject_value]
      rw [hvalue]
      refine ⟨rfl, by rw [hversion]; rfl, fun r hr => ?_, fun _ => rfl⟩
      rw [hcanned] at hr
      cases hr

/-- A scalar or a text goes anywhere that is not too deep. -/
theorem leaf_fits {height : ℕ} (hheight : height ≤ maxNestingDepth) {v : Json} (hwell : v.WellFormed)
    (hdepth : v.depth = 0) : Fits maxNestingDepth height v := ⟨hwell, by rw [hdepth]; exact hheight⟩

theorem int64_fits {height : ℕ} (hheight : height ≤ maxNestingDepth) (n : ℤ) :
    Fits maxNestingDepth height (int64 n) := leaf_fits hheight (formatInt_number n) rfl

theorem text_fits {height : ℕ} (hheight : height ≤ maxNestingDepth) (text : Str) :
    Fits maxNestingDepth height (.string (quoteString text)) :=
  leaf_fits hheight (quoteString_lexeme text) rfl

theorem blockchainInfo_fits {height : ℕ} (hheight : height + 1 ≤ maxNestingDepth) :
    Fits maxNestingDepth height blockchainInfo := by
  refine fits_object (by omega) fun m hm => ?_
  simp only [List.mem_cons, List.not_mem_nil, or_false] at hm
  rcases hm with rfl | rfl | rfl | rfl | rfl | rfl | rfl | rfl
  · exact ⟨lexeme_of_plain (by decide +kernel), text_fits hheight _⟩
  · exact ⟨lexeme_of_plain (by decide +kernel), int64_fits hheight _⟩
  · exact ⟨lexeme_of_plain (by decide +kernel), text_fits hheight _⟩
  · exact ⟨lexeme_of_plain (by decide +kernel), leaf_fits hheight
      ⟨.fraction, ⟨byte '8', _, .integer, rfl, by decide, by decide +kernel⟩, by decide⟩ rfl⟩
  · exact ⟨lexeme_of_plain (by decide +kernel), int64_fits hheight _⟩
  · exact ⟨lexeme_of_plain (by decide +kernel), leaf_fits hheight trivial rfl⟩
  · exact ⟨lexeme_of_plain (by decide +kernel), leaf_fits hheight trivial rfl⟩
  · exact ⟨lexeme_of_plain (by decide +kernel), leaf_fits hheight
      ⟨.fraction, ⟨byte '0', _, .zero, rfl, by decide, by decide +kernel⟩, by decide⟩ rfl⟩

theorem canned_fits {height : ℕ} (hheight : height + 1 ≤ maxNestingDepth) {method : Str} {result : Json}
    (h : canned method = some result) : Fits maxNestingDepth height result := by
  unfold canned at h
  split_ifs at h <;> cases h
  · exact int64_fits (by omega) _
  · exact blockchainInfo_fits hheight
  · exact leaf_fits (by omega) trivial rfl
  · exact int64_fits (by omega) _
  · exact text_fits (by omega) _

theorem id_fits {c : Call} {height : ℕ} (h : c.IdFits height) (hheight : height ≤ maxNestingDepth) :
    Fits maxNestingDepth height (c.id.getD .null) := by
  cases hid : c.id with
  | none => exact leaf_fits hheight trivial rfl
  | some id => exact h id hid

theorem errorObject_fits {height : ℕ} (hheight : height + 1 ≤ maxNestingDepth) (code : ErrorCode)
    (message : Str) : Fits maxNestingDepth height (errorObject code message) := by
  refine fits_object (by omega) fun m hm => ?_
  simp only [List.mem_cons, List.not_mem_nil, or_false] at hm
  rcases hm with rfl | rfl
  · exact ⟨code_readsBack.1, leaf_fits hheight (code_number code) rfl⟩
  · exact ⟨message_readsBack.1, text_fits hheight message⟩

theorem replyTo_fits {c : Call} {height : ℕ} (h : c.IdFits (height + 1))
    (hheight : height + 2 ≤ maxNestingDepth) : Fits maxNestingDepth height (replyTo c) := by
  have hid := id_fits h (by omega)
  have hversion : Fits maxNestingDepth (height + 1) versionField.2 := text_fits (by omega) _
  have hnull : Fits maxNestingDepth (height + 1) .null := leaf_fits (by omega) trivial rfl
  unfold replyTo
  split
  · next result hresult =>
    have hcanned : Fits maxNestingDepth (height + 1) result := canned_fits (by omega) hresult
    unfold successReply
    cases c.version with
    | v2 =>
      refine fits_object (by omega) fun m hm => ?_
      simp only [List.mem_cons, List.not_mem_nil, or_false] at hm
      rcases hm with rfl | rfl | rfl
      · exact ⟨id_readsBack.1, hid⟩
      · exact ⟨jsonrpc_readsBack.1, hversion⟩
      · exact ⟨result_readsBack.1, hcanned⟩
    | v1Legacy =>
      refine fits_object (by omega) fun m hm => ?_
      simp only [List.mem_cons, List.not_mem_nil, or_false] at hm
      rcases hm with rfl | rfl | rfl
      · exact ⟨error_readsBack.1, hnull⟩
      · exact ⟨id_readsBack.1, hid⟩
      · exact ⟨result_readsBack.1, hcanned⟩
  · have herror : Fits maxNestingDepth (height + 1)
        (errorObject .methodNotFound "Method not found".toList) := errorObject_fits (by omega) _ _
    unfold errorReply
    cases c.version with
    | v2 =>
      refine fits_object (by omega) fun m hm => ?_
      simp only [List.mem_cons, List.not_mem_nil, or_false] at hm
      rcases hm with rfl | rfl | rfl
      · exact ⟨error_readsBack.1, herror⟩
      · exact ⟨id_readsBack.1, hid⟩
      · exact ⟨jsonrpc_readsBack.1, hversion⟩
    | v1Legacy =>
      refine fits_object (by omega) fun m hm => ?_
      simp only [List.mem_cons, List.not_mem_nil, or_false] at hm
      rcases hm with rfl | rfl | rfl
      · exact ⟨error_readsBack.1, herror⟩
      · exact ⟨id_readsBack.1, hid⟩
      · exact ⟨result_readsBack.1, hnull⟩

def replyStatus (c : Call) : ℕ := if c.version = .v2 ∨ (canned c.method).isSome then 200 else 404

theorem answerSingle_eq (req : RpcReq) :
    answerSingle req = writeReply (replyStatus req.call) (replyTo req.call) := by
  have hreply := dispatch_reply req
  have hstatus : (if req.version = .v2 then 200 else ((dispatch req).2.map httpStatus).getD 200) =
      replyStatus req.call := by
    have hmethod : req.call.method = req.method := rfl
    have hversion : req.call.version = req.version := rfl
    rw [replyStatus, hmethod, hversion, dispatch]
    cases req.version <;> cases canned req.method <;> rfl
  rw [← hreply, ← hstatus]
  rfl

/-- A newline at the end of a text does not matter. -/
theorem parse_newline {body : Bytes} {v : Json} (h : JsonText.parse maxNestingDepth body = some v) :
    JsonText.parse maxNestingDepth (body ++ [byte '
']) = some v := by
  obtain ⟨⟨hlexemes, hspelled⟩, hdepth⟩ := parse_eq_some_iff.1 h
  have hblank : Blanks [byte '
'] := fun b hb => by
    rw [List.mem_singleton.1 hb]
    rfl
  exact parse_eq_some_iff.2 ⟨⟨hlexemes, hspelled.before hblank⟩, hdepth⟩

/-- What a client gets for its calls: one reply each, in order, in an array for a batch. -/
def Answered (env : Envelope) (resp : Response) : Prop :=
  ∃ v, JsonText.parse maxNestingDepth resp.body = some v ∧
    if env.isBatch then resp.status = 200 ∧ ∃ replies, v.value = .array replies ∧
      List.Forall₂ Replies env.calls replies
    else ∃ call, env.calls = [call] ∧ resp.status = replyStatus call ∧ Replies call v.value

section
variable {body : Bytes} {reqs : List RpcReq} {env : Envelope}

/-- The node answers what the proxy read. -/
theorem answered (henv : RpcRequests.parse body = some env)
    (hmethod : ∀ call ∈ env.calls, call.method ≠ []) (hreqs : requests body = some reqs) :
    Answered env (if startsBatch body then answerBatch reqs else answerSingle (reqs.headD {})) := by
  obtain ⟨hcalls, hbatch⟩ := requests_calls henv hmethod hreqs
  have hids := parse_idFits henv
  rw [hbatch]
  cases hb : env.isBatch with
  | true =>
    rw [if_pos rfl]
    rw [hb] at hids
    have hreplies : (reqs.map fun req => (dispatch req).1) = env.calls.map replyTo := by
      rw [← hcalls, List.map_map]
      exact List.map_congr_left fun req _ => dispatch_reply req
    have harray : Fits maxNestingDepth 0 (.array (env.calls.map replyTo)) := by
      refine fits_array (by decide) fun v hv => ?_
      obtain ⟨call, hcall, rfl⟩ := List.mem_map.1 hv
      exact replyTo_fits (hids call hcall) (by decide)
    have hbody : (answerBatch reqs).body = marshal (.array (env.calls.map replyTo)) ++ [byte '\n'] := by
      rw [answerBatch, hreplies]
    rw [Answered, hbody]
    refine ⟨_, parse_newline (parse_marshal harray), ?_⟩
    rw [hb, if_pos rfl, value_escaped harray.1]
    refine ⟨rfl, env.calls.map fun call => (replyTo call).value, ?_, ?_⟩
    · rw [Json.value, elementValues_eq_map, List.map_map]
      rfl
    · rw [List.forall₂_map_right_iff, List.forall₂_same]
      exact fun call _ => replyTo_replies call
  | false =>
    rw [if_neg Bool.false_ne_true]
    rw [hb] at hids
    obtain ⟨call, hcall⟩ := List.length_eq_one_iff.1 (env.single hb)
    rw [hcall] at hcalls
    obtain ⟨req, rfl, hreq⟩ := List.map_eq_singleton_iff.1 hcalls
    have hfits : Fits maxNestingDepth 0 (replyTo call) :=
      replyTo_fits (hids call (by rw [hcall]; exact List.mem_singleton_self _)) (by decide)
    have hanswer : answerSingle ([req].headD {}) = writeReply (replyStatus call) (replyTo call) := by
      rw [← hreq]
      exact answerSingle_eq req
    rw [hanswer]
    refine ⟨_, parse_marshal hfits, ?_⟩
    rw [hb, if_neg Bool.false_ne_true, value_escaped hfits.1]
    exact ⟨call, hcall, rfl, replyTo_replies call⟩

end

/-- What a node dispatches of what a handler forwards. -/
def reached (h : Handler) (rpcAuth : Str) (x : Exchange) : List RpcReq :=
  x.forwarded.flatMap fun f => dispatched rpcAuth (h.client.upstreamRequest f.path f.header f.body)

section
variable {h : Handler} {net : Net} {r : Request} {rpcAuth : Str}

/-- A request is forwarded as it is, after the filter let it pass, or not at all. -/
theorem forwarded_cases (h : Handler) (net : Net) (r : Request) : (h.serveHTTP net r).forwarded = [] ∨
    ∃ env, RpcRequests.parse r.body = some env ∧ ¬ Denied h env ∧
      (h.serveHTTP net r).forwarded = [⟨r.path, r.header, r.body⟩] ∧
      (h.serveHTTP net r).written = (h.forward net r env {}).written := by
  by_cases hlarge : h.maxBody < r.body.length
  · left
    rw [serveHTTP, record_forwarded, serve, readBody, if_pos hlarge]
    exact (reject_rejected h (by omega) (by omega) _).1
  cases hinterrupted : r.interrupted with
  | true =>
    left
    rw [serveHTTP, record_forwarded, serve, readBody, if_neg hlarge, hinterrupted, if_pos rfl]
    exact (reject_rejected h (by omega) (by omega) _).1
  | false =>
    have hr : r = fullRequest r.path r.header r.body := by
      rw [fullRequest, ← hinterrupted]
    cases hparse : RpcRequests.parse r.body with
    | none =>
      left
      rw [hr]
      exact (serveHTTP_malformed hlarge hparse).1
    | some env =>
      by_cases hdenied : Denied h env
      · left
        rw [hr]
        exact (serveHTTP_denied hlarge hparse hdenied).1
      · right
        have hforwards : (h.serveHTTP net r).forwarded = [⟨r.path, r.header, r.body⟩] ∧
            (h.serveHTTP net r).written = (h.forward net r env {}).written := by
          rw [hr]
          exact serveHTTP_forwards hlarge hparse hdenied
        exact ⟨env, rfl, hdenied, hforwards.1, hforwards.2⟩

/-- Past the filter every call has a method that the policy permits. -/
theorem permitted_calls (hfilter : h.filter = true) {env : Envelope} (hdenied : ¬ Denied h env) :
    ∀ call ∈ env.calls, call.method ≠ [] ∧ call.method ∈ h.allow.allowed := by
  intro call hcall
  by_contra hnot
  rw [not_and_or, not_ne_iff] at hnot
  exact hdenied ⟨hfilter, call, hcall, hnot⟩

/-- The client gets what the node answers. -/
theorem client_forward (c : Client) (rpcAuth : Str) (path : Bytes) (header : Header) (body : Bytes) :
    c.forward (mockNet rpcAuth) path header body =
      .ok (handle rpcAuth (c.upstreamRequest path header body)) := rfl

theorem forward_mockNet (hheaders : (handle rpcAuth
    (h.client.upstreamRequest r.path r.header r.body)).headers = jsonHeader) {env : Envelope}
    (hraw : env.raw = r.body) : (h.forward (mockNet rpcAuth) r env {}).written =
      [⟨(handle rpcAuth (h.client.upstreamRequest r.path r.header r.body)).status, jsonContentType,
        (handle rpcAuth (h.client.upstreamRequest r.path r.header r.body)).body⟩] := by
  have hstatus := handle_status rpcAuth (h.client.upstreamRequest r.path r.header r.body)
  have hresult : h.client.forward (mockNet rpcAuth) r.path r.header env.raw =
      .ok (handle rpcAuth (h.client.upstreamRequest r.path r.header r.body)) := by
    rw [hraw, client_forward]
  have hcontent : Header.get jsonHeader "Content-Type".toList = jsonContentType := by decide +kernel
  rw [forward, hresult]
  simp only [writeUpstreamResponse, hheaders, hcontent]
  rw [if_neg (by decide), write_written (by omega) (by omega), record_written]
  rfl

theorem handle_of_dispatched {req : HttpRequest} {reqs : List RpcReq}
    (hauth : authOk rpcAuth req.header = true) (hreqs : requests req.body = some reqs) :
    handle rpcAuth req =
      if startsBatch req.body then answerBatch reqs else answerSingle (reqs.headD {}) := by
  rw [handle, hauth, hreqs]
  rfl

/-- A node behind a filtering proxy dispatches only methods that the policy permits. What it
dispatches for a request is what the proxy read in it, in order, and the client gets what the node
answers, which is one reply for each of the calls. -/
theorem filtered_node (hfilter : h.filter = true) (rpcAuth : Str) (r : Request) :
    (∀ req ∈ reached h rpcAuth (h.serveHTTP (mockNet rpcAuth) r), req.method ∈ h.allow.allowed) ∧
      (reached h rpcAuth (h.serveHTTP (mockNet rpcAuth) r) ≠ [] →
        ∃ env resp, RpcRequests.parse r.body = some env ∧
          resp = handle rpcAuth (h.client.upstreamRequest r.path r.header r.body) ∧ Answered env resp ∧
          (reached h rpcAuth (h.serveHTTP (mockNet rpcAuth) r)).map RpcReq.call = env.calls ∧
          (h.serveHTTP (mockNet rpcAuth) r).written = [⟨resp.status, jsonContentType, resp.body⟩]) := by
  rcases forwarded_cases h (mockNet rpcAuth) r with hnone | ⟨env, henv, hdenied, hforwarded, hwritten⟩
  · rw [reached, hnone]
    exact ⟨nofun, fun h => absurd rfl h⟩
  · have hcalls := permitted_calls hfilter hdenied
    have hmethod : ∀ call ∈ env.calls, call.method ≠ [] := fun call hcall => (hcalls call hcall).1
    have hreached : reached h rpcAuth (h.serveHTTP (mockNet rpcAuth) r) =
        dispatched rpcAuth (h.client.upstreamRequest r.path r.header r.body) := by
      rw [reached, hforwarded, List.flatMap_singleton]
    rw [hreached, hwritten, dispatched]
    cases hauth : authOk rpcAuth (h.client.upstreamRequest r.path r.header r.body).header with
    | false => exact ⟨nofun, fun h => absurd rfl h⟩
    | true =>
      rw [if_pos rfl]
      have hbody : (h.client.upstreamRequest r.path r.header r.body).body = r.body := rfl
      cases hreqs : requests (h.client.upstreamRequest r.path r.header r.body).body with
      | none => exact ⟨nofun, fun h => absurd rfl h⟩
      | some reqs =>
        obtain ⟨hsame, -⟩ := requests_calls henv hmethod (hbody ▸ hreqs)
        have hhandle := handle_of_dispatched hauth hreqs
        rw [Option.getD_some]
        have hanswered : Answered env (handle rpcAuth (h.client.upstreamRequest r.path r.header r.body)) := by
          rw [hhandle]
          exact answered henv hmethod (hbody ▸ hreqs)
        refine ⟨fun req hreq => ?_, fun _ => ⟨env, _, henv, rfl, hanswered, hsame, ?_⟩⟩
        · have hcall : req.call ∈ env.calls := hsame ▸ List.mem_map_of_mem hreq
          exact (hcalls _ hcall).2
        · rw [forward_mockNet _ (parse_raw henv)]
          rw [hhandle]
          split <;> rfl

end

/-- A filtering proxy whose callers need no credentials. -/
def frontProxy : Handler where
  allow := newAllowlist []
  client := ⟨utf8 "http://127.0.0.1:8332".toList, basicAuth "u".toList "p".toList⟩
  maxBody := 1000
  filter := true
  recording := false

def mixedRequest : Request where
  path := utf8 "/".toList
  header := []
  body := utf8
    "[\x7b\"method\":\"uptime\",\"id\":1\x7d, \x7b\"jsonrpc\":\"2.0\",\"method\":\"getblock\"\x7d]".toList
  interrupted := false

theorem reached_mixedRequest : reached frontProxy "u:p".toList
    (frontProxy.serveHTTP (mockNet "u:p".toList) mixedRequest) ≠ [] :=
  List.length_pos_iff.1 (by decide +kernel)

theorem filtered_node_mixedRequest :
    ∃ env resp, RpcRequests.parse mixedRequest.body = some env ∧
      resp = handle "u:p".toList (frontProxy.client.upstreamRequest mixedRequest.path mixedRequest.header
        mixedRequest.body) ∧ Answered env resp ∧
      (reached frontProxy "u:p".toList
        (frontProxy.serveHTTP (mockNet "u:p".toList) mixedRequest)).map RpcReq.call = env.calls ∧
      (frontProxy.serveHTTP (mockNet "u:p".toList) mixedRequest).written =
        [⟨resp.status, jsonContentType, resp.body⟩] :=
  (@filtered_node frontProxy rfl "u:p".toList mixedRequest).2 reached_mixedRequest

/-- The node lets the credentials of the proxy in. -/
def Accepts (rpcAuth user password : Str) : Prop :=
  rpcAuth = [] ∨ user ≠ [] ∧ user ++ ':' :: password = rpcAuth

instance (rpcAuth user password : Str) : Decidable (Accepts rpcAuth user password) :=
  inferInstanceAs (Decidable (_ ∨ _))

theorem basicAuth_eq_iff {rpcAuth user password : Str} :
    basicAuth user password = "Basic ".toList ++ base64 (utf8 rpcAuth) ↔
      user ≠ [] ∧ user ++ ':' :: password = rpcAuth := by
  rw [basicAuth]
  split
  · next huser =>
    refine iff_of_false (fun h => ?_) (fun h => h.1 huser)
    exact absurd h.symm (List.append_ne_nil_of_left_ne_nil (by decide) _)
  · next huser =>
    rw [List.append_cancel_left_eq]
    constructor
    · intro h
      exact ⟨huser, utf8_injective (base64_injective h)⟩
    · rintro ⟨-, h⟩
      rw [h]

section
variable {client : Client} {rpcAuth user password : Str} {path body : Bytes} {caller : InboundHeader}

/-- A caller without credentials gets in with those of the proxy. -/
theorem authOk_proxy (hcaller : caller.entries.values authorizationKey = []) :
    authOk rpcAuth (upstreamHeader client user password path caller body) =
      decide (Accepts rpcAuth user password) := by
  have hget : caller.entries.get authorizationKey = [] := by
    rw [Header.get, hcaller]
    rfl
  have hvalues := authorization_upstreamHeader client user password path caller body
  rw [hget, hcaller] at hvalues
  have hauth : (upstreamHeader client user password path caller body).get authorizationKey =
      basicAuth user password := by
    rw [Header.get, hvalues]
    by_cases huser : user = []
    · rw [if_neg fun h => h.1 huser, basicAuth_eq_nil.2 huser]
      rfl
    · rw [if_pos ⟨huser, rfl⟩]
      rfl
  rw [Bool.eq_iff_iff, authOk, Bool.or_eq_true, decide_eq_true_iff, decide_eq_true_iff,
    decide_eq_true_iff]
  exact or_congr_right ((iff_of_eq (congrArg (· = _) hauth)).trans basicAuth_eq_iff)

/-- A caller with credentials gets in with its own. -/
theorem authOk_caller (hcaller : caller.entries.get authorizationKey ≠ []) :
    authOk rpcAuth (upstreamHeader client user password path caller body) =
      authOk rpcAuth caller.entries := by
  have hvalues := authorization_upstreamHeader client user password path caller body
  rw [if_neg fun h => hcaller h.2] at hvalues
  have hget : (upstreamHeader client user password path caller body).get "Authorization".toList =
      caller.entries.get "Authorization".toList := by
    rw [Header.get, Header.get]
    exact congrArg (List.headD · []) hvalues
  rw [authOk, authOk, hget]

end

theorem probe_distinct (p : Poller) : (p.probeHeader.map (·.1)).Nodup := by
  rw [Poller.probeHeader]
  split
  · exact List.nodup_nil
  · exact List.nodup_singleton _

theorem probe_canonical (p : Poller) : ∀ e ∈ p.probeHeader, canonicalHeaderKey e.1 = e.1 := by
  have hname : canonicalHeaderKey "Authorization".toList = "Authorization".toList := by decide +kernel
  intro e he
  rw [Poller.probeHeader] at he
  split at he
  · cases he
  · rw [List.mem_singleton.1 he]
    exact hname

def probeCaller (p : Poller) : InboundHeader := ⟨p.probeHeader, probe_distinct p, probe_canonical p⟩

/-- The poller of a proxy with these credentials, as `New` of `internal/app` sets it up. -/
def proxyPoller (client : Client) (user password urlError : Str) : Poller :=
  ⟨client.setUpstreamAuth user password, basicAuth user password, urlError⟩

section
variable (client : Client) (user password urlError rpcAuth : Str)

theorem authOk_probe : authOk rpcAuth ((client.setUpstreamAuth user password).upstreamRequest
    healthCheckPath (proxyPoller client user password urlError).probeHeader getblockcountBody).header =
      decide (Accepts rpcAuth user password) := by
  change authOk rpcAuth (upstreamHeader client user password healthCheckPath
    (probeCaller (proxyPoller client user password urlError)) getblockcountBody) = _
  have hprobe : (probeCaller (proxyPoller client user password urlError)).entries =
      if user = [] then [] else [(authorizationKey, [basicAuth user password])] :=
    if_congr basicAuth_eq_nil rfl rfl
  by_cases huser : user = []
  · have hnone : (probeCaller (proxyPoller client user password urlError)).entries.values
        authorizationKey = [] := by
      rw [hprobe, if_pos huser]
      rfl
    rw [authOk_proxy hnone]
  · have hown : (probeCaller (proxyPoller client user password urlError)).entries.get
        authorizationKey = basicAuth user password := by
      have hname : (authorizationKey == canonicalHeaderKey authorizationKey) = true := by decide +kernel
      rw [hprobe, if_neg huser, Header.get, Header.values, List.find?_cons_of_pos
        (p := fun e : Str × List Str => e.1 == canonicalHeaderKey authorizationKey) hname]
      rfl
    have hsome : (probeCaller (proxyPoller client user password urlError)).entries.get
        authorizationKey ≠ [] := by
      rw [hown]
      exact mt basicAuth_eq_nil.1 huser
    rw [authOk_caller hsome]
    rw [Bool.eq_iff_iff, authOk, Bool.or_eq_true, decide_eq_true_iff, decide_eq_true_iff,
      decide_eq_true_iff]
    exact or_congr_right ((iff_of_eq (congrArg (· = _) hown)).trans basicAuth_eq_iff)

end

def probeReq : RpcReq :=
  ⟨some (.string (utf8 "1.0".toList)), some (.string (utf8 "healthcheck".toList)), "getblockcount".toList⟩

set_option maxRecDepth 4000 in
theorem requests_probe : requests getblockcountBody = some [probeReq] := by rfl

theorem parseHeight_probe : parseHeight (answerSingle probeReq).body = cannedHeight := by
  have hbody : (answerSingle probeReq).body = marshal (.object
      ([(utf8 "error".toList, .null), (utf8 "id".toList, .string (utf8 "healthcheck".toList))] ++
        (utf8 "result".toList, .number (utf8 (formatInt cannedHeight))) :: [])) := rfl
  have hid : StringLexeme (utf8 "healthcheck".toList) := lexeme_of_plain (by decide +kernel)
  rw [hbody]
  refine parseHeight_reply (by decide) ?_ (fits_object (by decide) fun m hm => ?_)
  · decide +kernel
  · simp only [List.cons_append, List.nil_append, List.mem_cons, List.not_mem_nil, or_false] at hm
    rcases hm with rfl | rfl | rfl
    · exact ⟨error_readsBack.1, leaf_fits (by decide) trivial rfl⟩
    · exact ⟨id_readsBack.1, leaf_fits (by decide) hid rfl⟩
    · exact ⟨result_readsBack.1, leaf_fits (by decide) (formatInt_number _) rfl⟩

theorem handle_probe (rpcAuth : Str) {req : HttpRequest} (hbody : req.body = getblockcountBody) :
    handle rpcAuth req = if authOk rpcAuth req.header then answerSingle probeReq else unauthorized := by
  rw [handle, hbody, requests_probe]
  cases authOk rpcAuth req.header <;> rfl

theorem upstreamRequest_body (c : Client) (path : Bytes) (header : Header) (body : Bytes) :
    (c.upstreamRequest path header body).body = body := rfl

theorem parseHeight_unauthorized : parseHeight unauthorized.body = heightUnknown := by decide +kernel

/-- What the poller finds at the mock: without credentials of its own it is content with a node that
answers, and it knows the height when it is let in; with credentials it finds the node healthy
exactly when they are let in. -/
theorem poll_mockNet (client : Client) (user password urlError rpcAuth : Str) :
    ((proxyPoller client user password urlError).poll (mockNet rpcAuth)).reachable =
        decide (user = [] ∨ Accepts rpcAuth user password) ∧
      ((proxyPoller client user password urlError).poll (mockNet rpcAuth)).height =
        if Accepts rpcAuth user password then cannedHeight else heightUnknown := by
  obtain ⟨p, hp⟩ : ∃ p, p = proxyPoller client user password urlError := ⟨_, rfl⟩
  have hauth := authOk_probe client user password urlError rpcAuth
  rw [← hp] at hauth ⊢
  have hheader : p.authHeader = basicAuth user password := by rw [hp]; rfl
  have hresult : p.client.forward (mockNet rpcAuth) healthCheckPath p.probeHeader getblockcountBody =
      .ok (if Accepts rpcAuth user password then answerSingle probeReq else unauthorized) := by
    have hclient : p.client = client.setUpstreamAuth user password := by rw [hp]; rfl
    rw [client_forward, hclient, handle_probe rpcAuth (upstreamRequest_body ..), hauth]
    simp only [decide_eq_true_eq]
  rw [Poller.poll, hresult]
  by_cases haccepts : Accepts rpcAuth user password
  · have hstatus : (answerSingle probeReq).status = 200 := by decide +kernel
    simp only [haccepts, if_true, hstatus, or_true, decide_true]
    rw [if_neg (by omega), if_neg (by omega)]
    exact ⟨rfl, parseHeight_probe⟩
  · have hstatus : unauthorized.status = 401 := rfl
    simp only [haccepts, if_false, hstatus, or_false, hheader, ne_eq, basicAuth_eq_nil]
    rw [if_neg (by omega)]
    by_cases huser : user = []
    · rw [if_neg fun h => h.1 huser]
      exact ⟨(decide_eq_true huser).symm, parseHeight_unauthorized⟩
    · rw [if_pos ⟨huser, .inl trivial⟩]
      exact ⟨(decide_eq_false huser).symm, rfl⟩

/-- With credentials for the node, the poller reports it healthy exactly when the node lets in a
caller of the proxy that brings none. -/
theorem healthy_iff_callers_admitted {client : Client} {user : Str} (huser : user ≠ [])
    (password urlError rpcAuth : Str) {caller : InboundHeader}
    (hcaller : caller.entries.values authorizationKey = []) (path body : Bytes) :
    isHealthy (some ((proxyPoller client user password urlError).poll (mockNet rpcAuth))) =
      authOk rpcAuth (upstreamHeader client user password path caller body) := by
  rw [authOk_proxy hcaller, isHealthy, Option.any_some, (poll_mockNet ..).1]
  simp only [huser, false_or]

def bareCaller : InboundHeader := ⟨[], List.nodup_nil, List.forall_mem_nil _⟩

theorem healthy_iff_callers_admitted_wrongPassword :
    isHealthy (some ((proxyPoller ⟨[], []⟩ "u".toList "q".toList []).poll (mockNet "u:p".toList))) =
      authOk "u:p".toList (upstreamHeader ⟨[], []⟩ "u".toList "q".toList [] bareCaller []) :=
  @healthy_iff_callers_admitted ⟨[], []⟩ "u".toList (by decide) "q".toList [] "u:p".toList bareCaller rfl
    [] []

end BitcoinRpcOperator.MockNode
