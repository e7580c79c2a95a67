import Independence.Decimal.Binary64
/-!
# Decimal numerals

A numeral is an optional sign, digits with at most one point and at least one digit, and an optional
exponent. Besides numerals the words `inf`, `infinity` and `nan` are read, in any case and with a sign.
-/

namespace Independence.Decimal

def digitsValue (digits : List Char) : Nat :=
  digits.foldl (fun n c => 10 * n + (c.toNat - '0'.toNat)) 0

/-- Splits a leading sign from the text; the flag is set for a minus. -/
def splitSign : List Char → Bool × List Char
  | '-' :: rest => (true, rest)
  | '+' :: rest => (false, rest)
  | text => (false, text)

/-- An exponent is empty, or `e` or `E` followed by an optional sign and digits. -/
def exponent? : List Char → Option Int
  | [] => some 0
  | 'e' :: text | 'E' :: text =>
    let (negative, digits) := splitSign text
    if digits ≠ [] ∧ digits.all Char.isDigit then
      let n : Int := digitsValue digits
      some (if negative then -n else n)
    else none
  | _ => none

/-- The digits after a point and the text behind them. -/
def splitFraction : List Char → List Char × List Char
  | '.' :: text => (text.takeWhile Char.isDigit, text.dropWhile Char.isDigit)
  | text => ([], text)

/-- Reads a float from its whole text, rounding to the nearest value. -/
def readFloat? (text : String) : Option Float := do
  let (negative, body) := splitSign text.toList
  let word := String.ofList (body.map Char.toLower)
  if word = "nan" then return Float.ofBits 0x7ff8000000000000
  if word = "inf" ∨ word = "infinity" then
    return Float.ofBits (if negative then 0xfff0000000000000 else 0x7ff0000000000000)
  let whole := body.takeWhile Char.isDigit
  let (fraction, tail) := splitFraction (body.dropWhile Char.isDigit)
  if whole = [] ∧ fraction = [] then none
  let power ← exponent? tail
  return Binary64.ofDecimal negative (digitsValue (whole ++ fraction)) (power - fraction.length)

/-- Reads a natural number below `limit` from its whole text: an optional plus sign and decimal digits. -/
def readNat? (limit : Nat) (text : String) : Option Nat :=
  let digits := match text.toList with
    | '+' :: rest => rest
    | all => all
  if digits ≠ [] ∧ digits.all Char.isDigit then
    let n := digitsValue digits
    if n < limit then some n else none
  else none

end Independence.Decimal
