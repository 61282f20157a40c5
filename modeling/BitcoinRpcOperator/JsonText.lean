import BitcoinRpcOperator.Text

/-!
# JSON texts

A JSON text is read in two passes: a machine over its bytes that cuts it into tokens,
and a machine over the tokens that keeps a stack of open containers. Strings and numbers
stay the lexemes they were written as; members keep their order and their duplicates.
-/

namespace BitcoinRpcOperator.JsonText
open Text

def byte (c : Char) : UInt8 := c.toNat.toUInt8

inductive Token where
  | beginObject | endObject | beginArray | endArray | colon | comma
  | null
  | bool (b : Bool)
  | number (raw : Bytes)
  | string (raw : Bytes)
  deriving DecidableEq, Repr

def isDigit (b : UInt8) : Bool := byte '0' ≤ b && b ≤ byte '9'

def isHexDigit (b : UInt8) : Bool :=
  isDigit b || (byte 'a' ≤ b && b ≤ byte 'f') || (byte 'A' ≤ b && b ≤ byte 'F')

def isExponent (b : UInt8) : Bool := b == byte 'e' || b == byte 'E'

/-- White space between tokens. -/
def isBlank (b : UInt8) : Bool :=
  b == byte ' ' || b == byte '\t' || b == byte '\n' || b == byte '\r'

/-- What has been read of a number. -/
inductive NumberPhase where
  | minus | zero | integer | point | fraction | exponent | exponentSign | exponentDigits
  deriving DecidableEq, Repr

namespace NumberPhase

def next : NumberPhase → UInt8 → Option NumberPhase
  | .minus, b => if b == byte '0' then some .zero else if isDigit b then some .integer else none
  | .zero, b =>
    if b == byte '.' then some .point else if isExponent b then some .exponent else none
  | .integer, b =>
    if isDigit b then some .integer else if b == byte '.' then some .point
    else if isExponent b then some .exponent else none
  | .point, b => if isDigit b then some .fraction else none
  | .fraction, b =>
    if isDigit b then some .fraction else if isExponent b then some .exponent else none
  | .exponent, b =>
    if b == byte '+' || b == byte '-' then some .exponentSign
    else if isDigit b then some .exponentDigits else none
  | .exponentSign, b | .exponentDigits, b => if isDigit b then some .exponentDigits else none

/-- Whether a number may end here. -/
def complete : NumberPhase → Bool
  | .zero | .integer | .fraction | .exponentDigits => true
  | .minus | .point | .exponent | .exponentSign => false

end NumberPhase

/-- Where the machine stands between two bytes; lexemes are kept in reverse. -/
inductive Mode where
  | between
  | word (rest : Bytes) (token : Token)
  | number (phase : NumberPhase) (raw : Bytes)
  | string (raw : Bytes)
  | escape (raw : Bytes)
  | hex (missing : ℕ) (raw : Bytes)

def punctuation (b : UInt8) : Option Token :=
  if b == byte '{' then some .beginObject
  else if b == byte '}' then some .endObject
  else if b == byte '[' then some .beginArray
  else if b == byte ']' then some .endArray
  else if b == byte ':' then some .colon
  else if b == byte ',' then some .comma
  else none

/-- Read the first byte of a token, or a blank. -/
def beginToken (b : UInt8) : Option (List Token × Mode) :=
  match punctuation b with
  | some token => some ([token], .between)
  | none =>
    if isBlank b then some ([], .between)
    else if b == byte '"' then some ([], .string [])
    else if b == byte '-' then some ([], .number .minus [b])
    else if b == byte '0' then some ([], .number .zero [b])
    else if isDigit b then some ([], .number .integer [b])
    else if b == byte 't' then some ([], .word (utf8 "rue".toList) (.bool true))
    else if b == byte 'f' then some ([], .word (utf8 "alse".toList) (.bool false))
    else if b == byte 'n' then some ([], .word (utf8 "ull".toList) .null)
    else none

/-- The letters that may follow a backslash, besides `u`. -/
def isEscape (b : UInt8) : Bool :=
  b == byte '"' || b == byte '\\' || b == byte '/' || b == byte 'b' || b == byte 'f' ||
    b == byte 'n' || b == byte 'r' || b == byte 't'

/-- Read one byte: the tokens it completes, and where the machine stands then. -/
def step : Mode → UInt8 → Option (List Token × Mode)
  | .between, b => beginToken b
  | .word [] _, _ => none
  | .word (c :: rest) token, b =>
    if b == c then if rest.isEmpty then some ([token], .between) else some ([], .word rest token)
    else none
  | .number phase raw, b =>
    match phase.next b with
    | some phase => some ([], .number phase (b :: raw))
    | none =>
      -- a number ends at the first byte that cannot continue it
      if phase.complete then
        (beginToken b).map fun (tokens, mode) => (.number raw.reverse :: tokens, mode)
      else none
  | .string raw, b =>
    if b == byte '"' then some ([.string raw.reverse], .between)
    else if b == byte '\\' then some ([], .escape (b :: raw))
    else if b < 0x20 then none
    else some ([], .string (b :: raw))
  | .escape raw, b =>
    if b == byte 'u' then some ([], .hex 4 (b :: raw))
    else if isEscape b then some ([], .string (b :: raw))
    else none
  | .hex missing raw, b =>
    if isHexDigit b then
      if missing ≤ 1 then some ([], .string (b :: raw)) else some ([], .hex (missing - 1) (b :: raw))
    else none

/-- The tokens completed by the end of the text. -/
def finish : Mode → Option (List Token)
  | .between => some []
  | .number phase raw => if phase.complete then some [.number raw.reverse] else none
  | .word _ _ | .string _ | .escape _ | .hex _ _ => none

def tokens : Mode → Bytes → Option (List Token)
  | mode, [] => finish mode
  | mode, b :: bs => do
    let (now, mode) ← step mode b
    let later ← tokens mode bs
    some (now ++ later)

inductive Json where
  | null
  | bool (b : Bool)
  | number (raw : Bytes)
  | string (raw : Bytes)
  | array (elements : List Json)
  | object (members : List (Bytes × Json))

/-- An open container with what it holds so far, in reverse; `key` is that of the member
being read. -/
inductive Frame where
  | array (elements : List Json)
  | object (members : List (Bytes × Json)) (key : Bytes)

/-- What may come next. -/
inductive Expecting where
  | value
  /-- A value or the end of a list. -/
  | element
  /-- A key or the end of an object. -/
  | member
  | key
  | colon
  /-- A comma or the end of the innermost container. -/
  | next
  | done (v : Json)

/-- Put a finished value where it belongs. -/
def place (v : Json) : List Frame → List Frame × Expecting
  | [] => ([], .done v)
  | .array es :: stack => (.array (v :: es) :: stack, .next)
  | .object ms key :: stack => (.object ((key, v) :: ms) key :: stack, .next)

def openContainer (limit : ℕ) (frame : Frame) (then_ : Expecting) (stack : List Frame) :
    Option (List Frame × Expecting) :=
  if stack.length < limit then some (frame :: stack, then_) else none

def beginValue (limit : ℕ) (stack : List Frame) : Token → Option (List Frame × Expecting)
  | .null => some (place .null stack)
  | .bool b => some (place (.bool b) stack)
  | .number raw => some (place (.number raw) stack)
  | .string raw => some (place (.string raw) stack)
  | .beginArray => openContainer limit (.array []) .element stack
  | .beginObject => openContainer limit (.object [] []) .member stack
  | .endObject | .endArray | .colon | .comma => none

def closeContainer : List Frame → Token → Option (List Frame × Expecting)
  | .array es :: stack, .endArray => some (place (.array es.reverse) stack)
  | .object ms _ :: stack, .endObject => some (place (.object ms.reverse) stack)
  | _, _ => none

def beginMember : List Frame → Token → Option (List Frame × Expecting)
  | .object ms _ :: stack, .string raw => some (.object ms raw :: stack, .colon)
  | _, _ => none

/-- Read one token, with at most `limit` containers open. -/
def parseToken (limit : ℕ) : List Frame × Expecting → Token → Option (List Frame × Expecting)
  | (stack, .value), token => beginValue limit stack token
  | (stack, .element), token =>
    if token = .endArray then closeContainer stack token else beginValue limit stack token
  | (stack, .member), token =>
    if token = .endObject then closeContainer stack token else beginMember stack token
  | (stack, .key), token => beginMember stack token
  | (stack, .colon), token => if token = .colon then some (stack, .value) else none
  | (stack, .next), token =>
    if token = .comma then
      match stack with
      | .object _ _ :: _ => some (stack, .key)
      | _ => some (stack, .value)
    else closeContainer stack token
  | (_, .done _), _ => none

/-- The value of a JSON text, nested at most `limit` deep. -/
def parse (limit : ℕ) (text : Bytes) : Option Json := do
  let ts ← tokens .between text
  let final ← ts.foldlM (parseToken limit) ([], .value)
  match final.2 with
  | .done v => some v
  | _ => none

def hexValue (b : UInt8) : ℕ :=
  if isDigit b then b.toNat - (byte '0').toNat
  else if byte 'a' ≤ b then b.toNat - (byte 'a').toNat + 10
  else b.toNat - (byte 'A').toNat + 10

def codeUnit (a b c d : UInt8) : ℕ :=
  ((hexValue a * 16 + hexValue b) * 16 + hexValue c) * 16 + hexValue d

/-- U+FFFD, which stands for whatever is not a character. -/
def replacement : Char := Char.ofNat 0xFFFD

def isSurrogate (u : ℕ) : Bool := 0xD800 ≤ u && u ≤ 0xDFFF

def surrogatePair (high low : ℕ) : Option Char :=
  if 0xD800 ≤ high ∧ high ≤ 0xDBFF ∧ 0xDC00 ≤ low ∧ low ≤ 0xDFFF then
    some (Char.ofNat (0x10000 + (high - 0xD800) * 0x400 + (low - 0xDC00)))
  else none

def isTail (b : UInt8) : Bool := 0x80 ≤ b && b ≤ 0xBF

def tailBits (b : UInt8) : ℕ := b.toNat % 0x40

def rune2 (a b : UInt8) : Option Char :=
  if 0xC2 ≤ a && a ≤ 0xDF && isTail b then
    some (Char.ofNat (a.toNat % 0x20 * 0x40 + tailBits b))
  else none

def rune3 (a b c : UInt8) : Option Char :=
  let second := if a == 0xE0 then 0xA0 ≤ b && b ≤ 0xBF
    else if a == 0xED then 0x80 ≤ b && b ≤ 0x9F else isTail b
  if 0xE0 ≤ a && a ≤ 0xEF && second && isTail c then
    some (Char.ofNat ((a.toNat % 0x10 * 0x40 + tailBits b) * 0x40 + tailBits c))
  else none

def rune4 (a b c d : UInt8) : Option Char :=
  let second := if a == 0xF0 then 0x90 ≤ b && b ≤ 0xBF
    else if a == 0xF4 then 0x80 ≤ b && b ≤ 0x8F else isTail b
  if 0xF0 ≤ a && a ≤ 0xF4 && second && isTail c && isTail d then
    some (Char.ofNat (((a.toNat % 0x08 * 0x40 + tailBits b) * 0x40 + tailBits c) * 0x40 + tailBits d))
  else none

def escaped (b : UInt8) : Char :=
  if b == byte 'b' then '\x08' else if b == byte 'f' then '\x0c'
  else if b == byte 'n' then '\n' else if b == byte 'r' then '\r'
  else if b == byte 't' then '\t' else Char.ofNat b.toNat

/-- A `\u` escape after its letter: the character, and how many more bytes it takes. A
surrogate takes its partner with it. -/
def unicodeEscape : Bytes → Char × ℕ
  | h₁ :: h₂ :: h₃ :: h₄ :: rest =>
    let unit := codeUnit h₁ h₂ h₃ h₄
    if isSurrogate unit then
      match rest with
      | s :: u :: g₁ :: g₂ :: g₃ :: g₄ :: _ =>
        match surrogatePair unit (codeUnit g₁ g₂ g₃ g₄) with
        | some r => if s == byte '\\' && u == byte 'u' then (r, 10) else (replacement, 4)
        | none => (replacement, 4)
      | _ => (replacement, 4)
    else (Char.ofNat unit, 4)
  | rest => (replacement, rest.length)

/-- A character of more than one byte, and how many bytes follow its first. -/
def multibyte (b : UInt8) : Bytes → Char × ℕ
  | b₂ :: b₃ :: b₄ :: _ =>
    match rune2 b b₂, rune3 b b₂ b₃, rune4 b b₂ b₃ b₄ with
    | some r, _, _ => (r, 1)
    | none, some r, _ => (r, 2)
    | none, none, some r => (r, 3)
    | none, none, none => (replacement, 0)
  | [b₂, b₃] =>
    match rune2 b b₂, rune3 b b₂ b₃ with
    | some r, _ => (r, 1)
    | none, some r => (r, 2)
    | none, none => (replacement, 0)
  | [b₂] =>
    match rune2 b b₂ with
    | some r => (r, 1)
    | none => (replacement, 0)
  | [] => (replacement, 0)

/-- The first character of a string lexeme that starts with `b`. -/
def character (b : UInt8) (rest : Bytes) : Char × ℕ :=
  if b == byte '\\' then
    match rest with
    | [] => (replacement, 0)
    | e :: rest =>
      if e == byte 'u' then
        let (c, n) := unicodeEscape rest
        (c, n + 1)
      else (escaped e, 1)
  else if b < 0x80 then (Char.ofNat b.toNat, 0)
  else multibyte b rest

/-- The text of a lexeme whose first `skip` bytes belong to a character already read. -/
def unquoteFrom : ℕ → Bytes → Str
  | _, [] => []
  | 0, b :: rest => (character b rest).1 :: unquoteFrom (character b rest).2 rest
  | skip + 1, _ :: rest => unquoteFrom skip rest

/-- The text a string lexeme stands for. Bytes that are not UTF-8 and surrogates without a
partner are replaced. -/
def unquote : Bytes → Str := unquoteFrom 0

def quoted (escape : Bytes → Bytes) (raw : Bytes) : Bytes := byte '"' :: escape raw ++ [byte '"']

mutual

/-- The compact text of a value, with `escape` applied to its string lexemes. -/
def encode (escape : Bytes → Bytes) : Json → Bytes
  | .null => utf8 "null".toList
  | .bool true => utf8 "true".toList
  | .bool false => utf8 "false".toList
  | .number raw => raw
  | .string raw => quoted escape raw
  | .array es => byte '[' :: [byte ','].intercalate (encodeElements escape es) ++ [byte ']']
  | .object ms => byte '{' :: [byte ','].intercalate (encodeMembers escape ms) ++ [byte '}']

def encodeElements (escape : Bytes → Bytes) : List Json → List Bytes
  | [] => []
  | v :: vs => encode escape v :: encodeElements escape vs

def encodeMembers (escape : Bytes → Bytes) : List (Bytes × Json) → List Bytes
  | [] => []
  | (key, v) :: ms =>
    (quoted escape key ++ byte ':' :: encode escape v) :: encodeMembers escape ms

end

end BitcoinRpcOperator.JsonText
