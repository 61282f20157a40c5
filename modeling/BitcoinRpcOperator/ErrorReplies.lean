import BitcoinRpcOperator.MarshalledText
import BitcoinRpcOperator.ProxyHandler

/-!
# The error replies a client decodes

`ErrorReply`, `marshalArray` and the bodies made of them in bytes, with what they fall back
to when `json.Marshal` fails, and the values a client reads from them.
-/

namespace BitcoinRpcOperator.JsonText
open Text

namespace Value

/-- The names of the members, and none for anything but an object. -/
def names : Value → List Str
  | .object ms => ms.map (·.1)
  | _ => []

/-- The last member called `name`. -/
def member (name : Str) : Value → Option Value
  | .object ms => (ms.findRev? fun m => m.1 == name).map (·.2)
  | _ => none

end Value

mutual

theorem mapStrings_self : ∀ v : Json, v.mapStrings (fun raw => raw) = v
  | .null | .bool _ | .number _ | .string _ => rfl
  | .array es => by rw [Json.mapStrings, mapElements_self es]
  | .object ms => by rw [Json.mapStrings, mapMembers_self ms]

theorem mapElements_self : ∀ es : List Json, Json.mapElements (fun raw => raw) es = es
  | [] => rfl
  | v :: vs => by rw [Json.mapElements, mapStrings_self v, mapElements_self vs]

theorem mapMembers_self :
    ∀ ms : List (Bytes × Json), Json.mapMembers (fun raw => raw) ms = ms
  | [] => rfl
  | (key, v) :: ms => by rw [Json.mapMembers, mapStrings_self v, mapMembers_self ms]

end

theorem parse_null {limit : ℕ} : parse limit (utf8 "null".toList) = some .null :=
  @parse_encode (fun raw => raw) (fun _ h => h) limit .null trivial (Nat.zero_le _)

mutual

theorem encode_mapStrings {f g : Bytes → Bytes} (h : ∀ raw, f (g raw) = f raw) :
    ∀ v : Json, encode f (v.mapStrings g) = encode f v
  | .null => rfl
  | .bool _ => rfl
  | .number _ => rfl
  | .string raw => by rw [Json.mapStrings, encode, encode, quoted, quoted, h]
  | .array es => by rw [Json.mapStrings, encode, encode, encode_mapElements h es]
  | .object ms => by rw [Json.mapStrings, encode, encode, encode_mapMembers h ms]

theorem encode_mapElements {f g : Bytes → Bytes} (h : ∀ raw, f (g raw) = f raw) :
    ∀ es : List Json, encodeElements f (Json.mapElements g es) = encodeElements f es
  | [] => rfl
  | v :: vs => by
    rw [Json.mapElements, encodeElements, encodeElements, encode_mapStrings h v,
      encode_mapElements h vs]

theorem encode_mapMembers {f g : Bytes → Bytes} (h : ∀ raw, f (g raw) = f raw) :
    ∀ ms : List (Bytes × Json), encodeMembers f (Json.mapMembers g ms) = encodeMembers f ms
  | [] => rfl
  | (key, v) :: ms => by
    rw [Json.mapMembers, encodeMembers, encodeMembers, encode_mapStrings h v,
      encode_mapMembers h ms, quoted, quoted, h]

end

end BitcoinRpcOperator.JsonText

namespace BitcoinRpcOperator.RpcRequests
open Text JsonText

/-- Marshalled text is read back as the value with its strings escaped. -/
theorem parse_marshal {limit : ℕ} {v : Json} (h : Fits limit 0 v) :
    JsonText.parse limit (marshal v) = some (v.mapStrings escapeHtml) :=
  parse_encode (fun _ => escapeHtml_lexeme) h.1 (by simpa using h.2)

theorem value_escaped {v : Json} (h : v.WellFormed) : (v.mapStrings escapeHtml).value = v.value :=
  value_mapStrings (fun _ => unquote_escapeHtml) v h

/-- Marshalling what was marshalled changes nothing. -/
theorem marshal_escaped (v : Json) : marshal (v.mapStrings escapeHtml) = marshal v :=
  encode_mapStrings (fun raw => escapeHtml_idem raw.length le_rfl) v

/-- The id of a call as it came, up to white space. -/
def Call.rawId (c : Call) : Bytes := (c.id.map (encode fun raw => raw)).getD []

/-- The id a reply echoes: that of the call when it has one and it is valid. -/
def Call.replyId (c : Call) : Bytes :=
  if c.id.isNone || (JsonText.parse maxNestingDepth c.rawId).isNone then utf8 "null".toList
  else c.rawId

/-- `json.Marshal` of the reply, which fails on an id that is no JSON text. -/
def Call.marshalReply (c : Call) (code : ErrorCode) (message : Str) : Option Bytes :=
  (JsonText.parse maxNestingDepth c.replyId).map fun id =>
    marshal (({ c with id := some id } : Call).errorReply code message)

/-- What `ErrorReply` falls back to. -/
def internalErrorText : Bytes :=
  utf8 ("\x7b\"result\":null,\"error\":\x7b\"code\":-32603,".toList ++
    "\"message\":\"internal error\"\x7d\x7d".toList)

def Call.errorReplyText (c : Call) (code : ErrorCode) (message : Str) : Bytes :=
  (c.marshalReply code message).getD internalErrorText

def Call.denyMessage (c : Call) : Str :=
  "method '".toList ++ c.method ++ "' not allowed by proxy policy".toList

def Call.denyErrorText (c : Call) : Bytes := c.errorReplyText .methodNotFound c.denyMessage

/-- `json.Marshal` of raw messages. -/
def marshalParts (parts : List Bytes) : Option Bytes :=
  (parts.mapM (JsonText.parse maxNestingDepth)).map fun vs => marshal (.array vs)

end BitcoinRpcOperator.RpcRequests

namespace BitcoinRpcOperator.ProxyHandler.Handler
open Text JsonText RpcRequests

def internalMsg : Str := "internal error".toList

def simpleErrorText (code : ErrorCode) (msg : Str) : Bytes := ({} : Call).errorReplyText code msg

def marshalArray (parts : List Bytes) : Bytes :=
  (marshalParts parts).getD (simpleErrorText .internalError internalMsg)

/-- The replies to the calls of a batch that is not forwarded. -/
def denyParts (h : Handler) (env : Envelope) : List Bytes :=
  env.calls.map fun call =>
    if h.allowed call then call.errorReplyText .invalidRequest batchRejectedMsg
    else call.denyErrorText

def denyBodyText (h : Handler) (env : Envelope) : Bytes :=
  if env.isBatch then marshalArray (h.denyParts env)
  else (env.calls.headD {}).denyErrorText

def errorParts (env : Envelope) (code : ErrorCode) (msg : Str) : List Bytes :=
  env.calls.map fun call => call.errorReplyText code msg

def envelopeErrorText (env : Envelope) (code : ErrorCode) (msg : Str) : Bytes :=
  if env.isBatch then marshalArray (errorParts env code msg)
  else match env.calls with
    | [] => simpleErrorText code msg
    | call :: _ => call.errorReplyText code msg

end BitcoinRpcOperator.ProxyHandler.Handler

namespace BitcoinRpcOperator.RpcRequests
open Text JsonText

/-- The id leaves room for the containers around it. -/
def Call.IdFits (height : ℕ) (c : Call) : Prop :=
  ∀ id, c.id = some id → Fits maxNestingDepth height id

theorem structField_mem {name : Str} {members : List (Bytes × Json)} {v : Json}
    (h : structField name members = some v) : ∃ key, (key, v) ∈ members := by
  rw [structField, List.findRev?_eq_find?_reverse, Option.map_eq_some_iff] at h
  obtain ⟨m, hfind, rfl⟩ := h
  exact ⟨m.1, List.mem_reverse.1 (List.mem_of_find?_eq_some hfind)⟩

theorem parseElement_idFits {v : Json} {height : ℕ} (h : Fits maxNestingDepth height v) :
    (parseElement v).IdFits (height + 1) := by
  intro id hid
  cases v with
  | object members =>
    obtain ⟨key, hmem⟩ := structField_mem hid
    have hwell := Json.membersWellFormed_iff.1 h.1 _ hmem
    have hdepth : id.depth ≤ Json.membersDepth members :=
      Json.membersDepth_le.1 le_rfl (key, id) hmem
    have hheight : height + (Json.membersDepth members + 1) ≤ maxNestingDepth := h.2
    exact ⟨hwell.2, by omega⟩
  | _ => cases hid

/-- The ids of the calls nest no deeper than the replies allow. -/
theorem parse_idFits {body : Bytes} {env : Envelope} (henv : parse body = some env) :
    ∀ c ∈ env.calls, c.IdFits (if env.isBatch then 2 else 1) := by
  obtain ⟨value, hvalue, henv⟩ := Option.bind_eq_some_iff.1 henv
  obtain ⟨hwell, hdepth⟩ := parse_fits hvalue
  cases value with
  | object members =>
    obtain rfl := Option.some.inj henv
    intro c hc
    obtain rfl := List.mem_singleton.1 hc
    exact parseElement_idFits ⟨hwell, by simpa using hdepth⟩
  | array elements =>
    obtain rfl := Option.some.inj henv
    intro c hc
    obtain ⟨v, hv, rfl⟩ := List.mem_map.1 hc
    have hdeep : Json.elementsDepth elements + 1 ≤ maxNestingDepth := hdepth
    have hle := Json.elementsDepth_le.1 le_rfl v hv
    exact parseElement_idFits ⟨Json.elementsWellFormed_iff.1 hwell v hv, by omega⟩
  | _ => cases henv

def Call.idValue (c : Call) : Value := (c.id.map Json.value).getD .null

/-- The id that a reply holds. -/
theorem parse_replyId {c : Call} {height : ℕ} (h : c.IdFits height) :
    JsonText.parse maxNestingDepth c.replyId = some (c.id.getD .null) := by
  unfold Call.replyId
  cases hid : c.id with
  | none => exact parse_null
  | some id =>
    have hfits := h id hid
    have hroom : id.depth ≤ maxNestingDepth := by
      have hsum := hfits.2
      omega
    have hparse : JsonText.parse maxNestingDepth c.rawId = some id := by
      rw [Call.rawId, hid, Option.map_some, Option.getD_some,
        parse_encode (fun _ hraw => hraw) hfits.1 hroom, mapStrings_self]
    rw [hparse]
    exact hparse

/-- A reply is an error for its call: in the shape of the version of the call, with its id
and the given code. -/
structure Call.Replied (c : Call) (code : ErrorCode) (reply : Value) : Prop where
  v2 : (reply.names = ["jsonrpc".toList, "error".toList, "id".toList] ∧
    reply.member "jsonrpc".toList = some (.string "2.0".toList)) ↔ c.version = .v2
  v1 : (reply.names = ["result".toList, "error".toList, "id".toList] ∧
    reply.member "result".toList = some .null) ↔ c.version = .v1Legacy
  id : reply.member "id".toList = some c.idValue
  code : (reply.member "error".toList).bind (Value.member "code".toList) =
    some (.number (utf8 code.text))

def errorValue (code : ErrorCode) (message : Str) : Value :=
  .object [("code".toList, .number (utf8 code.text)), ("message".toList, .string message)]

/-- A lexeme without escapes. -/
theorem lexeme_of_plain {raw : Bytes}
    (h : raw.all fun b => b != byte '"' && b != byte '\\' && !decide (b < 0x20)) :
    StringLexeme raw := by
  induction raw with
  | nil => exact .nil
  | cons b raw ih =>
    simp only [List.all_cons, Bool.and_eq_true, bne_iff_ne, Bool.not_eq_true',
      decide_eq_false_iff_not] at h
    obtain ⟨⟨⟨hquote, hslash⟩, hctl⟩, hrest⟩ := h
    exact .plain hquote hslash hctl (ih (by simpa using hrest))

/-- A member name is a lexeme and reads as it is written. -/
def ReadsBack (name : Str) : Prop := StringLexeme (utf8 name) ∧ unquote (utf8 name) = name

theorem code_readsBack : ReadsBack "code".toList :=
  ⟨lexeme_of_plain (by decide +kernel), by decide +kernel⟩

theorem message_readsBack : ReadsBack "message".toList :=
  ⟨lexeme_of_plain (by decide +kernel), by decide +kernel⟩

theorem error_readsBack : ReadsBack "error".toList :=
  ⟨lexeme_of_plain (by decide +kernel), by decide +kernel⟩

theorem id_readsBack : ReadsBack "id".toList :=
  ⟨lexeme_of_plain (by decide +kernel), by decide +kernel⟩

theorem result_readsBack : ReadsBack "result".toList :=
  ⟨lexeme_of_plain (by decide +kernel), by decide +kernel⟩

theorem jsonrpc_readsBack : ReadsBack "jsonrpc".toList :=
  ⟨lexeme_of_plain (by decide +kernel), by decide +kernel⟩

theorem errorObject_value (code : ErrorCode) (message : Str) :
    (errorObject code message).value = errorValue code message := by
  simp only [errorObject, textField, Json.value, memberValues, code_readsBack.2, message_readsBack.2,
    unquote_quoteString, errorValue]

theorem idValue_eq (c : Call) : (c.id.getD .null).value = c.idValue := by
  rw [Call.idValue]
  cases c.id <;> rfl

theorem errorReply_v2 {c : Call} (h : c.version = .v2) (code : ErrorCode) (message : Str) :
    (c.errorReply code message).value = .object [("jsonrpc".toList, .string "2.0".toList),
      ("error".toList, errorValue code message), ("id".toList, c.idValue)] := by
  simp only [Call.errorReply, h, textField, Json.value, memberValues, jsonrpc_readsBack.2,
    unquote_quoteString, error_readsBack.2, id_readsBack.2, errorObject_value, idValue_eq]

theorem errorReply_v1 {c : Call} (h : c.version = .v1Legacy) (code : ErrorCode) (message : Str) :
    (c.errorReply code message).value = .object [("result".toList, .null),
      ("error".toList, errorValue code message), ("id".toList, c.idValue)] := by
  simp only [Call.errorReply, h, Json.value, memberValues, result_readsBack.2,
    error_readsBack.2, id_readsBack.2, errorObject_value, idValue_eq]

theorem errorReply_replied (c : Call) (code : ErrorCode) (message : Str) :
    c.Replied code (c.errorReply code message).value := by
  cases hversion : c.version with
  | v2 =>
    rw [errorReply_v2 hversion]
    constructor
    · exact iff_of_true ⟨rfl, rfl⟩ hversion
    · exact iff_of_false (fun h => absurd h.1 (by simp [Value.names])) (by simp [hversion])
    · rfl
    · rfl
  | v1Legacy =>
    rw [errorReply_v1 hversion]
    constructor
    · exact iff_of_false (fun h => absurd h.1 (by simp [Value.names])) (by simp [hversion])
    · exact iff_of_true ⟨rfl, rfl⟩ hversion
    · rfl
    · rfl

theorem code_number (code : ErrorCode) : NumberLexeme (utf8 code.text) := by
  cases code <;>
    exact ⟨.integer, ⟨byte '-', _, .minus, rfl, by decide, by decide +kernel⟩, by decide⟩

theorem errorReply_fits {c : Call} {height : ℕ} (h : c.IdFits (height + 1))
    (hheight : height + 2 ≤ maxNestingDepth) (code : ErrorCode) (message : Str) :
    Fits maxNestingDepth height (c.errorReply code message) := by
  have hstring : ∀ n ≤ maxNestingDepth, ∀ text, Fits maxNestingDepth n (.string (quoteString text)) :=
    fun n hn text => ⟨quoteString_lexeme text, by simpa [Json.depth] using hn⟩
  have herror : Fits maxNestingDepth (height + 1) (errorObject code message) := by
    refine fits_object (by omega) fun m hm => ?_
    simp only [List.mem_cons, List.not_mem_nil, or_false] at hm
    rcases hm with rfl | rfl
    · exact ⟨code_readsBack.1, code_number code,
        by rw [Json.depth]; omega⟩
    · exact ⟨message_readsBack.1, hstring _ hheight message⟩
  have hid : Fits maxNestingDepth (height + 1) (c.id.getD .null) := by
    cases hid : c.id with
    | none => exact ⟨trivial, by simpa [Json.depth] using (by omega : height + 1 ≤ maxNestingDepth)⟩
    | some id => exact h id hid
  unfold Call.errorReply
  cases c.version with
  | v2 =>
    refine fits_object (by omega) fun m hm => ?_
    simp only [List.mem_cons, List.not_mem_nil, or_false] at hm
    rcases hm with rfl | rfl | rfl
    · exact ⟨jsonrpc_readsBack.1, hstring _ (by omega) _⟩
    · exact ⟨error_readsBack.1, herror⟩
    · exact ⟨id_readsBack.1, hid⟩
  | v1Legacy =>
    refine fits_object (by omega) fun m hm => ?_
    simp only [List.mem_cons, List.not_mem_nil, or_false] at hm
    rcases hm with rfl | rfl | rfl
    · exact ⟨result_readsBack.1, trivial,
        by simpa [Json.depth] using (by omega : height + 1 ≤ maxNestingDepth)⟩
    · exact ⟨error_readsBack.1, herror⟩
    · exact ⟨id_readsBack.1, hid⟩

theorem marshalReply_eq {c : Call} {height : ℕ} (h : c.IdFits height) (code : ErrorCode)
    (message : Str) : c.marshalReply code message = some (marshal (c.errorReply code message)) := by
  rw [Call.marshalReply, parse_replyId h, Option.map_some]
  cases hid : c.id <;> simp [Call.errorReply, hid]

theorem errorReplyText_eq {c : Call} {height : ℕ} (h : c.IdFits height) (code : ErrorCode)
    (message : Str) : c.errorReplyText code message = marshal (c.errorReply code message) := by
  rw [Call.errorReplyText, marshalReply_eq h, Option.getD_some]

theorem denyErrorText_eq {c : Call} {height : ℕ} (h : c.IdFits height) :
    c.denyErrorText = marshal c.denyError := errorReplyText_eq h _ _

/-- Replies that were marshalled are read back one by one. -/
theorem mapM_parse_marshal {vs : List Json} (h : ∀ v ∈ vs, Fits maxNestingDepth 1 v) :
    (vs.map marshal).mapM (JsonText.parse maxNestingDepth) =
      some (Json.mapElements escapeHtml vs) := by
  induction vs with
  | nil => rfl
  | cons v vs ih =>
    have hfits := h v (List.mem_cons_self ..)
    have hparse : JsonText.parse maxNestingDepth (marshal v) = some (v.mapStrings escapeHtml) :=
      parse_marshal ⟨hfits.1, by have hsum := hfits.2; omega⟩
    have hrest := ih fun w hw => h w (List.mem_cons_of_mem _ hw)
    rw [List.map_cons, List.mapM_cons, hparse, hrest]
    rfl

/-- An array of marshalled replies is the marshalled array. -/
theorem marshalParts_eq {vs : List Json} (h : ∀ v ∈ vs, Fits maxNestingDepth 1 v) :
    marshalParts (vs.map marshal) = some (marshal (.array vs)) := by
  rw [marshalParts, mapM_parse_marshal h, Option.map_some]
  exact congrArg some (marshal_escaped (.array vs))

end BitcoinRpcOperator.RpcRequests

namespace BitcoinRpcOperator.ProxyHandler.Handler
open Text JsonText RpcRequests

def denyPart (h : Handler) (call : Call) : Json :=
  if h.allowed call then call.errorReply .invalidRequest batchRejectedMsg else call.denyError

section
variable {env : Envelope} {body : Bytes}

theorem denyParts_eq (h : Handler) (henv : RpcRequests.parse body = some env) :
    h.denyParts env = (env.calls.map h.denyPart).map marshal := by
  rw [denyParts, List.map_map]
  apply List.map_congr_left
  intro call hcall
  have hid := parse_idFits henv call hcall
  unfold Function.comp denyPart
  by_cases hallowed : h.allowed call
  · rw [if_pos hallowed, if_pos hallowed, errorReplyText_eq hid]
  · rw [if_neg hallowed, if_neg hallowed, denyErrorText_eq hid]

theorem errorParts_eq (henv : RpcRequests.parse body = some env) (code : ErrorCode) (msg : Str) :
    errorParts env code msg = (env.calls.map fun call => call.errorReply code msg).map marshal := by
  rw [errorParts, List.map_map]
  apply List.map_congr_left
  intro call hcall
  exact errorReplyText_eq (parse_idFits henv call hcall) code msg

/-- Every reply in a batch leaves room for the array. -/
theorem part_fits (henv : RpcRequests.parse body = some env) (hbatch : env.isBatch = true)
    {call : Call} (hcall : call ∈ env.calls) (code : ErrorCode) (msg : Str) :
    Fits maxNestingDepth 1 (call.errorReply code msg) := by
  have hid := parse_idFits henv call hcall
  rw [hbatch] at hid
  exact errorReply_fits hid (by decide) code msg

theorem denyPart_fits (h : Handler) (henv : RpcRequests.parse body = some env)
    (hbatch : env.isBatch = true) : ∀ v ∈ env.calls.map h.denyPart, Fits maxNestingDepth 1 v := by
  intro v hv
  obtain ⟨call, hcall, rfl⟩ := List.mem_map.1 hv
  unfold denyPart
  split
  · exact part_fits henv hbatch hcall _ _
  · exact part_fits henv hbatch hcall _ _

theorem errorPart_fits (henv : RpcRequests.parse body = some env) (hbatch : env.isBatch = true)
    (code : ErrorCode) (msg : Str) :
    ∀ v ∈ env.calls.map fun call => call.errorReply code msg, Fits maxNestingDepth 1 v := by
  intro v hv
  obtain ⟨call, hcall, rfl⟩ := List.mem_map.1 hv
  exact part_fits henv hbatch hcall _ _

/-- What `deny` writes is the body in bytes. -/
theorem denyBodyText_eq (h : Handler) (henv : RpcRequests.parse body = some env) :
    h.denyBodyText env = marshal (h.denyBody env).1 := by
  unfold denyBodyText denyBody
  cases hbatch : env.isBatch with
  | true =>
    rw [if_pos rfl, if_pos rfl, marshalArray, denyParts_eq h henv,
      marshalParts_eq (denyPart_fits h henv hbatch)]
    rfl
  | false =>
    obtain ⟨call, hcall⟩ := List.length_eq_one_iff.1 (env.single hbatch)
    have hid := parse_idFits henv call (by simp [hcall])
    rw [hcall]
    exact denyErrorText_eq hid

/-- So is what is written after an upstream failure. -/
theorem envelopeErrorText_eq (henv : RpcRequests.parse body = some env) (code : ErrorCode)
    (msg : Str) : envelopeErrorText env code msg = marshal (envelopeErrorBody env code msg) := by
  unfold envelopeErrorText envelopeErrorBody
  cases hbatch : env.isBatch with
  | true =>
    rw [if_pos rfl, if_pos rfl, marshalArray, errorParts_eq henv,
      marshalParts_eq (errorPart_fits henv hbatch code msg)]
    rfl
  | false =>
    obtain ⟨call, hcall⟩ := List.length_eq_one_iff.1 (env.single hbatch)
    have hid := parse_idFits henv call (by simp [hcall])
    rw [hcall]
    exact errorReplyText_eq hid code msg

/-- The text is JSON and answers the calls one by one: an array for a batch and a single
reply for a single call. -/
def Answers (env : Envelope) (code : Call → ErrorCode) (text : Bytes) : Prop :=
  ∃ v, JsonText.parse maxNestingDepth text = some v ∧
    if env.isBatch then ∃ replies, v.value = .array replies ∧
      List.Forall₂ (fun call reply => call.Replied (code call) reply) env.calls replies
    else ∃ call, env.calls = [call] ∧ call.Replied (code call) v.value

/-- Marshalled replies answer a batch. -/
theorem answers_batch {code : Call → ErrorCode} {reply : Call → Json} (hbatch : env.isBatch = true)
    (hfits : ∀ v ∈ env.calls.map reply, Fits maxNestingDepth 1 v)
    (hreply : ∀ call ∈ env.calls, call.Replied (code call) (reply call).value) :
    Answers env code (marshal (.array (env.calls.map reply))) := by
  have harray : Fits maxNestingDepth 0 (.array (env.calls.map reply)) :=
    fits_array (by decide) hfits
  refine ⟨_, parse_marshal harray, ?_⟩
  rw [if_pos hbatch, value_escaped harray.1]
  refine ⟨env.calls.map fun call => (reply call).value, ?_, ?_⟩
  · rw [Json.value, elementValues_eq_map, List.map_map]
    rfl
  · rw [List.forall₂_map_right_iff, List.forall₂_same]
    exact hreply

theorem answers_single {code : Call → ErrorCode} {reply : Json} {call : Call}
    (hbatch : env.isBatch = false) (hcall : env.calls = [call]) (hfits : Fits maxNestingDepth 0 reply)
    (hreply : call.Replied (code call) reply.value) : Answers env code (marshal reply) := by
  refine ⟨_, parse_marshal hfits, ?_⟩
  rw [hbatch, value_escaped hfits.1]
  exact ⟨call, hcall, hreply⟩

def denialCode (h : Handler) (call : Call) : ErrorCode :=
  if h.allowed call then .invalidRequest else .methodNotFound

theorem denyPart_replied (h : Handler) (call : Call) :
    call.Replied (h.denialCode call) (h.denyPart call).value := by
  unfold denialCode denyPart
  split
  · exact errorReply_replied call _ _
  · exact errorReply_replied call _ _

theorem deny_answers (h : Handler) (henv : RpcRequests.parse body = some env)
    (hdenied : h.anyDenied env) : Answers env h.denialCode (h.denyBodyText env) := by
  rw [denyBodyText_eq h henv]
  cases hbatch : env.isBatch with
  | true =>
    have hbody : (h.denyBody env).1 = .array (env.calls.map h.denyPart) := by
      rw [denyBody, if_pos hbatch]
      rfl
    rw [hbody]
    exact answers_batch hbatch (denyPart_fits h henv hbatch) fun call _ => h.denyPart_replied call
  | false =>
    obtain ⟨call, hcall⟩ := List.length_eq_one_iff.1 (env.single hbatch)
    have hid : call.IdFits 1 := by
      have hfits := parse_idFits henv call (by simp [hcall])
      rwa [hbatch] at hfits
    have hnot : h.denialCode call = .methodNotFound := by
      have hany : ¬ h.allowed call := by
        simp only [anyDenied, hcall, Bool.and_eq_true, List.any_cons, List.any_nil, Bool.or_false,
          Bool.not_eq_true'] at hdenied
        simp [hdenied.2]
      exact if_neg hany
    have hbody : (h.denyBody env).1 = call.denyError := by
      rw [denyBody, hbatch, hcall]
      rfl
    rw [hbody]
    apply answers_single hbatch hcall (errorReply_fits hid (by decide) _ _)
    rw [hnot]
    exact errorReply_replied call _ _

theorem error_answers (henv : RpcRequests.parse body = some env) (code : ErrorCode) (msg : Str) :
    Answers env (fun _ => code) (envelopeErrorText env code msg) := by
  rw [envelopeErrorText_eq henv]
  cases hbatch : env.isBatch with
  | true =>
    have hbody : envelopeErrorBody env code msg =
        .array (env.calls.map fun call => call.errorReply code msg) := by
      rw [envelopeErrorBody, if_pos hbatch]
    rw [hbody]
    exact answers_batch hbatch (errorPart_fits henv hbatch code msg)
      fun call _ => errorReply_replied call _ _
  | false =>
    obtain ⟨call, hcall⟩ := List.length_eq_one_iff.1 (env.single hbatch)
    have hid : call.IdFits 1 := by
      have hfits := parse_idFits henv call (by simp [hcall])
      rwa [hbatch] at hfits
    have hbody : envelopeErrorBody env code msg = call.errorReply code msg := by
      rw [envelopeErrorBody, hbatch, hcall]
      rfl
    rw [hbody]
    exact answers_single hbatch hcall (errorReply_fits hid (by decide) _ _)
      (errorReply_replied call _ _)

/-- No reply to the calls and no array of them falls back to an internal error. -/
structure NoFallback (h : Handler) (env : Envelope) : Prop where
  reply : ∀ call ∈ env.calls, ∀ code message, (call.marshalReply code message).isSome
  denial : env.isBatch → (marshalParts (h.denyParts env)).isSome
  failure : env.isBatch → ∀ code msg, (marshalParts (errorParts env code msg)).isSome

theorem noFallback (h : Handler) (henv : RpcRequests.parse body = some env) :
    h.NoFallback env := by
  constructor
  · intro call hcall code message
    rw [marshalReply_eq (parse_idFits henv call hcall)]
    rfl
  · intro hbatch
    rw [denyParts_eq h henv, marshalParts_eq (denyPart_fits h henv hbatch)]
    rfl
  · intro hbatch code msg
    rw [errorParts_eq henv, marshalParts_eq (errorPart_fits henv hbatch code msg)]
    rfl

/-- Error replies match the calls they answer. -/
theorem error_replies_match (h : Handler) (henv : RpcRequests.parse body = some env) :
    (h.anyDenied env → Answers env h.denialCode (h.denyBodyText env)) ∧
      (∀ msg, Answers env (fun _ => .internalError) (envelopeErrorText env .internalError msg)) ∧
      h.NoFallback env :=
  ⟨deny_answers h henv, error_answers henv .internalError, noFallback h henv⟩

end

/-- A filtering proxy without extra methods. -/
def filtering : Handler where
  allow := newAllowlist []
  client := ⟨utf8 "http://127.0.0.1:8332".toList, []⟩
  maxBody := 1048576
  filter := true
  recording := false

def mixedBatch : Bytes :=
  utf8 ("[\x7b\"jsonrpc\":\"2.0\",\"method\":\"uptime\",\"id\":[1]\x7d,".toList ++
    "\x7b\"method\":\"stop\"\x7d]".toList)

theorem error_replies_match_mixedBatch : ∃ env, RpcRequests.parse mixedBatch = some env ∧
    env.calls.length = 2 ∧ Answers env filtering.denialCode (filtering.denyBodyText env) := by
  have hparse : (RpcRequests.parse mixedBatch).any
      fun env => filtering.anyDenied env && env.calls.length == 2 := by decide +kernel
  obtain ⟨env, henv, hdenied⟩ := Option.any_eq_true _ _ |>.1 hparse
  rw [Bool.and_eq_true, beq_iff_eq] at hdenied
  exact ⟨env, henv, hdenied.2, (error_replies_match filtering henv).1 hdenied.1⟩

end BitcoinRpcOperator.ProxyHandler.Handler
