import Independence.Decimal.Binary64
/-!
# Shortest decimals

The text of a float is the decimal with the fewest digits among those that round to it, the nearest one
where several have as few, and the greater of two equally near. It is written positionally, never with an
exponent, and a whole number has no point.
-/

namespace Independence

/-- A decimal `digits * 10 ^ power`. -/
structure Decimal where
  digits : Nat
  power : Int
deriving DecidableEq, Repr

namespace Decimal

/-- The magnitudes that round to a float, scaled by a common denominator: the float itself and the two
halfway points, which belong to the interval if `closed`. -/
structure Interval where
  low : Nat
  value : Nat
  high : Nat
  denominator : Nat
  closed : Bool

/-- The magnitudes that round to `significand * 2 ^ exponent`. Below a power of two the neighbours lie half
as far apart as above it. -/
def Interval.around (significand : Nat) (exponent : Int) : Interval :=
  let gap := if significand = Binary64.leadingBit ∧ exponent ≠ Binary64.minExponent then 1 else 2
  let (unit, den) := Binary64.scale 2 1 4 exponent
  ⟨(4 * significand - gap) * unit, 4 * significand * unit, (4 * significand + 2) * unit, den,
    significand % 2 == 0⟩

/-- The multiple of `10 ^ power` nearest to the value among its two neighbours on that grid that lie in the
interval. -/
def Interval.onGrid? (i : Interval) (power : Int) : Option Decimal :=
  let (unit, den) := Binary64.scale 10 i.denominator 1 power
  let inside (d : Nat) : Bool :=
    if i.closed then i.low * den ≤ d * unit && d * unit ≤ i.high * den
    else i.low * den < d * unit && d * unit < i.high * den
  let below := i.value * den / unit
  let rest := i.value * den % unit
  match inside below, inside (below + 1) with
  | true, true => some ⟨if 2 * rest < unit then below else below + 1, power⟩
  | true, false => some ⟨below, power⟩
  | false, true => some ⟨below + 1, power⟩
  | false, false => none

/-- The powers of ten whose grids can hold the shortest decimal of a float, coarsest first. -/
def gridPowers : List Int := (List.range 634).map fun i => 309 - Int.ofNat i

/-- The shortest decimal that rounds to the positive float `significand * 2 ^ exponent`. -/
def shortest (significand : Nat) (exponent : Int) : Decimal :=
  let i := Interval.around significand exponent
  (gridPowers.findSome? i.onGrid?).getD ⟨0, 0⟩

/-- The decimal written out with a point where its power is negative. -/
def text (d : Decimal) : String :=
  let digits := Nat.toDigits 10 d.digits
  match d.power with
  | .ofNat p => String.ofList (digits ++ List.replicate p '0')
  | .negSucc p =>
    let places := p + 1
    let padded := List.replicate (places + 1 - digits.length) '0' ++ digits
    String.ofList (padded.take (padded.length - places) ++ '.' :: padded.drop (padded.length - places))

/-- The text of a float: `NaN` without a sign, `inf`, or its shortest decimal. -/
def floatText (x : Float) : String :=
  match Binary64.ofFloat x with
  | .nan => "NaN"
  | .infinite negative => if negative then "-inf" else "inf"
  | .finite negative significand exponent =>
    let magnitude := if significand = 0 then "0" else (shortest significand exponent).text
    if negative then "-" ++ magnitude else magnitude

end Decimal

end Independence
