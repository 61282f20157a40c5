import BitcoinRpcOperator.Text

/-!
# Python values and their texts

The values that `json.loads` and `ast.literal_eval` return, with `repr` and `json.dumps`.
A float or a complex number is known by its `repr`, and a dictionary by its entries in the
order of insertion.
-/

namespace BitcoinRpcOperator.PythonValues
open Text

inductive Data where
  | none
  | ellipsis
  | bool (b : Bool)
  | int (n : ℤ)
  | float (text : Str)
  | complex (text : Str)
  | str (s : Str)
  | bytes (bs : Bytes)
  | list (xs : List Data)
  | tuple (xs : List Data)
  | set (xs : List Data)
  | dict (entries : List (Data × Data))

/-- What the functions here raise, with the text of what a handler catches. -/
inductive PythonError where
  | typeError
  | valueError (message : Str)
  | recursionError (message : Str)
  | memoryError
  deriving DecidableEq, Repr

def PythonError.name : PythonError → Str
  | .typeError => "TypeError".toList
  | .valueError _ => "ValueError".toList
  | .recursionError _ => "RecursionError".toList
  | .memoryError => "MemoryError".toList

def intText : ℤ → Str
  | .ofNat n => Nat.toDigits 10 n
  | .negSucc n => '-' :: Nat.toDigits 10 (n + 1)

/-- `sys.get_int_max_str_digits()`: the most digits that `str` and `int` convert. -/
def maxStrDigits : ℕ := 4300

def intFits (n : ℤ) : Bool := (Nat.toDigits 10 n.natAbs).length ≤ maxStrDigits

def tooManyDigits : PythonError :=
  .valueError ("Exceeds the limit (4300 digits) for integer string conversion; ".toList ++
    "use sys.set_int_max_str_digits() to increase the limit".toList)

def intStr (n : ℤ) : Except PythonError Str :=
  if intFits n then .ok (intText n) else .error tooManyDigits

def hexDigit (n : ℕ) : Char := "0123456789abcdef".toList.getD n '0'

/-- The lowest `count` hexadecimal digits of `n`. -/
def hex (count n : ℕ) : Str :=
  (List.range count).reverse.map fun i => hexDigit (n / 16 ^ i % 16)

section
variable (printable : Char → Bool)

/-- How `repr` writes a character between quotes `q`; `printable` answers for what is not
ASCII. -/
def reprChar (q c : Char) : Str :=
  if c == q || c == '\\' then ['\\', c]
  else if c == '\t' then "\\t".toList else if c == '\n' then "\\n".toList
  else if c == '\r' then "\\r".toList
  else if c.toNat < 0x20 || c.toNat == 0x7f then "\\x".toList ++ hex 2 c.toNat
  else if c.toNat < 0x7f || printable c then [c]
  else if c.toNat < 0x100 then "\\x".toList ++ hex 2 c.toNat
  else if c.toNat < 0x10000 then "\\u".toList ++ hex 4 c.toNat
  else "\\U".toList ++ hex 8 c.toNat

/-- Double quotes only for a text that has single quotes and no double ones. -/
def reprQuote (s : Str) : Char := if s.contains '\'' && !s.contains '"' then '"' else '\''

def reprStr (s : Str) : Str :=
  let q := reprQuote s
  q :: s.flatMap (reprChar printable q) ++ [q]

def reprByte (q : Char) (b : UInt8) : Str :=
  let c := Char.ofNat b.toNat
  if c == q || c == '\\' then ['\\', c]
  else if c == '\t' then "\\t".toList else if c == '\n' then "\\n".toList
  else if c == '\r' then "\\r".toList
  else if b < 0x20 || 0x7f ≤ b then "\\x".toList ++ hex 2 b.toNat
  else [c]

def reprBytes (bs : Bytes) : Str :=
  let q := reprQuote (bs.map fun b => Char.ofNat b.toNat)
  'b' :: q :: bs.flatMap (reprByte q) ++ [q]

def joined (sep : Str) (parts : List Str) : Str := sep.intercalate parts

mutual

def repr : Data → Str
  | .none => "None".toList
  | .ellipsis => "Ellipsis".toList
  | .bool true => "True".toList
  | .bool false => "False".toList
  | .int n => intText n
  | .float text => text
  | .complex text => text
  | .str s => reprStr printable s
  | .bytes bs => reprBytes bs
  | .list xs => '[' :: joined ", ".toList (reprItems xs) ++ [']']
  | .tuple [] => "()".toList
  | .tuple [x] => '(' :: repr x ++ ",)".toList
  | .tuple (x :: y :: xs) => '(' :: joined ", ".toList (repr x :: repr y :: reprItems xs) ++ [')']
  | .set [] => "set()".toList
  | .set (x :: xs) => '\x7b' :: joined ", ".toList (repr x :: reprItems xs) ++ ['\x7d']
  | .dict es => '\x7b' :: joined ", ".toList (reprEntries es) ++ ['\x7d']

def reprItems : List Data → List Str
  | [] => []
  | x :: xs => repr x :: reprItems xs

def reprEntries : List (Data × Data) → List Str
  | [] => []
  | (k, v) :: es => (repr k ++ ": ".toList ++ repr v) :: reprEntries es

end

/-- `str`, where it returns. -/
def text : Data → Str
  | .str s => s
  | v => repr printable v

mutual

/-- No integer in the value has too many digits to be written. -/
def intsFit : Data → Bool
  | .int n => intFits n
  | .list xs => itemsFit xs
  | .tuple xs => itemsFit xs
  | .set xs => itemsFit xs
  | .dict es => entriesFit es
  | _ => true

def itemsFit : List Data → Bool
  | [] => true
  | x :: xs => intsFit x && itemsFit xs

def entriesFit : List (Data × Data) → Bool
  | [] => true
  | (k, v) :: es => intsFit k && intsFit v && entriesFit es

end

def strOf (v : Data) : Except PythonError Str :=
  if intsFit v then .ok (text printable v) else .error tooManyDigits

end

/-- `\u` escapes of a character, in two code units where it needs them. -/
def unicodeEscape (n : ℕ) : Str :=
  if n < 0x10000 then "\\u".toList ++ hex 4 n
  else "\\u".toList ++ hex 4 (0xD800 + (n - 0x10000) / 0x400) ++
    "\\u".toList ++ hex 4 (0xDC00 + (n - 0x10000) % 0x400)

/-- How `json.dumps` writes a character of a string. -/
def jsonChar (c : Char) : Str :=
  if c == '"' || c == '\\' then ['\\', c]
  else if c == '\n' then "\\n".toList else if c == '\r' then "\\r".toList
  else if c == '\t' then "\\t".toList else if c == '\x08' then "\\b".toList
  else if c == '\x0c' then "\\f".toList
  else if 0x20 ≤ c.toNat && c.toNat ≤ 0x7e then [c]
  else unicodeEscape c.toNat

def jsonString (s : Str) : Str := '"' :: s.flatMap jsonChar ++ ['"']

def jsonFloat (text : Str) : Str :=
  if text = "nan".toList then "NaN".toList
  else if text = "inf".toList then "Infinity".toList
  else if text = "-inf".toList then "-Infinity".toList
  else text

/-- What `json.dumps` makes of a key. -/
def jsonKey : Data → Except PythonError Str
  | .str s => .ok s
  | .bool true => .ok "true".toList
  | .bool false => .ok "false".toList
  | .none => .ok "null".toList
  | .int n => intStr n
  | .float text => .ok (jsonFloat text)
  | _ => .error .typeError

/-- How `json.dumps` is called: the two separators, and `sort_keys`. -/
structure Style where
  item : Str
  key : Str
  sorted : Bool

/-- `json.dumps(value)`. -/
def plainStyle : Style := ⟨", ".toList, ": ".toList, false⟩

/-- `json.dumps(value, separators=(",", ":"), sort_keys=True)`. -/
def compactStyle : Style := ⟨",".toList, ":".toList, true⟩

/-- The order of `str`, by code points. -/
def strLe : Str → Str → Bool
  | [], _ => true
  | _ :: _, [] => false
  | a :: s, b :: t => a.toNat < b.toNat || (a.toNat == b.toNat && strLe s t)

/-- Entries by name, in the order in which they are written. -/
def Style.order (style : Style) {α : Type} (entries : List (Str × α)) : List (Str × α) :=
  if style.sorted then entries.insertionSort fun a b => strLe a.1 b.1 else entries

def Style.entryText (style : Style) (entry : Str × Str) : Str :=
  jsonString entry.1 ++ style.key ++ entry.2

mutual

def dumps (style : Style) : Data → Except PythonError Str
  | .none => .ok "null".toList
  | .bool true => .ok "true".toList
  | .bool false => .ok "false".toList
  | .int n => intStr n
  | .float text => .ok (jsonFloat text)
  | .str s => .ok (jsonString s)
  | .list xs => do
    let items ← dumpsItems style xs
    return '[' :: joined style.item items ++ [']']
  | .tuple xs => do
    let items ← dumpsItems style xs
    return '[' :: joined style.item items ++ [']']
  | .dict es => do
    let entries ← dumpsEntries style es
    return '\x7b' :: joined style.item ((style.order entries).map style.entryText) ++ ['\x7d']
  | .ellipsis | .complex _ | .bytes _ | .set _ => .error .typeError

def dumpsItems (style : Style) : List Data → Except PythonError (List Str)
  | [] => .ok []
  | x :: xs => do
    let item ← dumps style x
    let items ← dumpsItems style xs
    return item :: items

/-- The entries with their keys and values written. -/
def dumpsEntries (style : Style) : List (Data × Data) → Except PythonError (List (Str × Str))
  | [] => .ok []
  | (k, v) :: es => do
    let key ← jsonKey k
    let value ← dumps style v
    let entries ← dumpsEntries style es
    return (key, value) :: entries

end

end BitcoinRpcOperator.PythonValues
