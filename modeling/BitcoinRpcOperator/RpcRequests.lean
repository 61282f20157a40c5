import BitcoinRpcOperator.JsonText

/-!
# JSON-RPC requests as the proxy reads them

`internal/rpc` of the proxy: how a request body becomes calls, and the error replies made
for them. Decoding follows `encoding/json`: the names of struct members match up to case,
and a later matching member overwrites an earlier one.
-/

namespace BitcoinRpcOperator.RpcRequests
open Text JsonText

def isSpaceRune (c : Char) : Bool :=
  let n := c.toNat
  (9 ≤ n && n ≤ 13) || n == 0x20 || n == 0x85 || n == 0xa0 || n == 0x1680 ||
    (0x2000 ≤ n && n ≤ 0x200a) || n == 0x2028 || n == 0x2029 || n == 0x202f || n == 0x205f ||
    n == 0x3000

/-- White space of one, two and three bytes. -/
def isSpace1 (a : UInt8) : Bool := a < 0x80 && isSpaceRune (Char.ofNat a.toNat)

def isSpace2 (a b : UInt8) : Bool := (rune2 a b).any isSpaceRune

def isSpace3 (a b c : UInt8) : Bool := (rune3 a b c).any isSpaceRune

/-- Drop white space from the front, given what is white space there. -/
def dropSpaces (one : UInt8 → Bool) (two : UInt8 → UInt8 → Bool)
    (three : UInt8 → UInt8 → UInt8 → Bool) : Bytes → Bytes
  | a :: b :: c :: rest =>
    if one a then dropSpaces one two three (b :: c :: rest)
    else if two a b then dropSpaces one two three (c :: rest)
    else if three a b c then dropSpaces one two three rest
    else a :: b :: c :: rest
  | [a, b] =>
    if one a then dropSpaces one two three [b] else if two a b then [] else [a, b]
  | [a] => if one a then [] else [a]
  | [] => []

/-- `bytes.TrimSpace`; from the back, the bytes of a rune come in reverse. -/
def trimSpace (bs : Bytes) : Bytes :=
  (dropSpaces isSpace1 (fun a b => isSpace2 b a) (fun a b c => isSpace3 c b a)
    (dropSpaces isSpace1 isSpace2 isSpace3 bs).reverse).reverse

/-- The nesting limit of `encoding/json`. -/
def maxNestingDepth : ℕ := 10000

/-- `foldRune` on the runes that fold into ASCII. -/
def foldRune (c : Char) : Char :=
  if c == 'ſ' then 'S' else if c == '\u212A' then 'K' else c.toUpper

def foldName (name : Str) : Str := name.map foldRune

/-- The value a struct member called `name` is decoded from: the last of the matching ones. -/
def structField (name : Str) (members : List (Bytes × Json)) : Option Json :=
  (members.findRev? fun m => foldName (unquote m.1) == foldName name).map (·.2)

/-- `extractString`: the text of a JSON string, and the empty one for anything else. -/
def extractString : Option Json → Str
  | some (.string raw) => unquote raw
  | _ => []

inductive Version where
  | v1Legacy | v2
  deriving DecidableEq, Repr

def detectVersion (raw : Option Json) : Version :=
  if extractString raw = "2.0".toList then .v2 else .v1Legacy

/-- `Call`; `id` is absent in a notification. -/
structure Call where
  method : Str := []
  id : Option Json := none
  version : Version := .v1Legacy

/-- `Envelope`; a request outside a batch is one call. -/
structure Envelope where
  isBatch : Bool
  calls : List Call
  raw : Bytes
  single : isBatch = false → calls.length = 1

def parseElement : Json → Call
  | .object members =>
    { version := detectVersion (structField "jsonrpc".toList members)
      method := extractString (structField "method".toList members)
      id := structField "id".toList members }
  | _ => {}

def bodyValue (body : Bytes) : Option Json := JsonText.parse maxNestingDepth (trimSpace body)

/-- `Parse`; `none` is `ErrMalformed`. -/
def parse (body : Bytes) : Option Envelope := do
  let value ← bodyValue body
  match value with
  | .object _ => some ⟨false, [parseElement value], body, fun _ => rfl⟩
  | .array elements => some ⟨true, elements.map parseElement, body, nofun⟩
  | _ => none

/-- The error codes the proxy emits itself. -/
inductive ErrorCode where
  | parseError | invalidRequest | methodNotFound | internalError
  deriving DecidableEq, Repr

def ErrorCode.text : ErrorCode → Str
  | .parseError => "-32700".toList
  | .invalidRequest => "-32600".toList
  | .methodNotFound => "-32601".toList
  | .internalError => "-32603".toList

def hexDigit (n : ℕ) : Char := "0123456789abcdef".toList.getD n '0'

/-- How `json.Marshal` writes a character of a string. -/
def quoteChar (c : Char) : Str :=
  if c == '"' || c == '\\' then ['\\', c]
  else if c == '\x08' then "\\b".toList else if c == '\x0c' then "\\f".toList
  else if c == '\n' then "\\n".toList else if c == '\r' then "\\r".toList
  else if c == '\t' then "\\t".toList
  else if c.toNat < 0x20 || c == '<' || c == '>' || c == '&' then
    "\\u00".toList ++ [hexDigit (c.toNat / 16), hexDigit (c.toNat % 16)]
  else if c.toNat == 0x2028 then "\\u2028".toList
  else if c.toNat == 0x2029 then "\\u2029".toList
  else [c]

def quoteString (s : Str) : Bytes := utf8 (s.flatMap quoteChar)

/-- The HTML escaping of raw messages: `<`, `>`, `&` and the two line separators. -/
def escapeHtml : Bytes → Bytes
  | a :: b :: c :: rest =>
    if a == 0xE2 && b == 0x80 && (c == 0xA8 || c == 0xA9) then
      utf8 (if c == 0xA8 then "\\u2028".toList else "\\u2029".toList) ++ escapeHtml rest
    else escapeByte a ++ escapeHtml (b :: c :: rest)
  | [a, b] => escapeByte a ++ escapeByte b
  | [a] => escapeByte a
  | [] => []
where
  escapeByte (a : UInt8) : Bytes :=
    if a == byte '<' || a == byte '>' || a == byte '&' then
      quoteString [Char.ofNat a.toNat]
    else [a]

def marshal : Json → Bytes := encode escapeHtml

def textField (name text : Str) : Bytes × Json := (utf8 name, .string (quoteString text))

def errorObject (code : ErrorCode) (message : Str) : Json :=
  .object [(utf8 "code".toList, .number (utf8 code.text)), textField "message".toList message]

/-- `ErrorReply`: framed like the call, with its id echoed. -/
def Call.errorReply (c : Call) (code : ErrorCode) (message : Str) : Json :=
  let error := (utf8 "error".toList, errorObject code message)
  let id := (utf8 "id".toList, c.id.getD .null)
  match c.version with
  | .v2 => .object [textField "jsonrpc".toList "2.0".toList, error, id]
  | .v1Legacy => .object [(utf8 "result".toList, .null), error, id]

def Call.denyError (c : Call) : Json :=
  c.errorReply .methodNotFound
    ("method '".toList ++ c.method ++ "' not allowed by proxy policy".toList)

end BitcoinRpcOperator.RpcRequests
