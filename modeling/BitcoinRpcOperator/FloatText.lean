import BitcoinRpcOperator.BinaryFloats
import BitcoinRpcOperator.Text

/-!
# Floating point numbers as Python prints them

`repr` of a float that is not negative: the shortest decimal number that is rounded to it.
-/

namespace BitcoinRpcOperator.FloatText
open Text BinaryFloats

/-- The decimal numbers of `p` digits on both sides of `x`, the nearer first, as an integer and the
power of ten it is multiplied with. -/
def neighbours (x : ℚ) (p : ℕ) : List (ℤ × ℤ) :=
  let exponent := Int.log 10 x + 1 - p
  let nearer := nearestEven (x / 10 ^ exponent)
  [(nearer, exponent), (2 * ⌊x / 10 ^ exponent⌋ + 1 - nearer, exponent)]

/-- The shortest decimal number that is rounded to `x`; no number needs more than 17 digits. -/
def shortestDecimal (x : ℚ) : ℤ × ℤ :=
  (((List.range 17).flatMap fun p => neighbours x (p + 1)).find? fun d =>
    round64 (d.1 * 10 ^ d.2) = x).getD (0, 0)

/-- Digits with the point in front of the digit `point`. -/
def placePoint (digits : Str) (point : ℤ) : Str :=
  if point ≤ 0 then "0.".toList ++ List.replicate (-point).toNat '0' ++ digits
  else if digits.length ≤ point.toNat then
    digits ++ List.replicate (point.toNat - digits.length) '0' ++ ".0".toList
  else digits.take point.toNat ++ '.' :: digits.drop point.toNat

def exponentText (e : ℤ) : Str :=
  let digits := Nat.toDigits 10 e.natAbs
  'e' :: (if e < 0 then '-' else '+') :: (if digits.length < 2 then ['0'] else []) ++ digits

/-- `repr(x)` -/
def reprRat (x : ℚ) : Str :=
  if x = 0 then "0.0".toList
  else
    let (n, e) := shortestDecimal x
    let all := Nat.toDigits 10 n.toNat
    let digits := all.rdropWhile (· == '0')
    let point := all.length + e
    if -4 < point ∧ point ≤ 16 then placePoint digits point
    else digits.take 1 ++ (if digits.length = 1 then [] else '.' :: digits.drop 1) ++ exponentText (point - 1)

def reprFloat : Float64 → Str
  | .finite x _ => reprRat x
  | .infinite => "inf".toList

end BitcoinRpcOperator.FloatText
