/-!
# Binary64 values

A finite 64-bit float is a sign, a natural significand and a power of two. Reading a quotient of naturals
rounds it to the nearest such value, a tie going to the even significand.
-/

namespace Independence

/-- What the bits of a 64-bit float stand for. -/
inductive Binary64 where
  | nan
  | infinite (negative : Bool)
  /-- The value `± significand * 2 ^ exponent`. -/
  | finite (negative : Bool) (significand : Nat) (exponent : Int)
deriving DecidableEq, Repr

namespace Binary64

/-- The least significand of a value that is not subnormal. -/
def leadingBit : Nat := 1 <<< 52

/-- The exponent of subnormal values, the least one. -/
def minExponent : Int := -1074

def ofBits (bits : UInt64) : Binary64 :=
  let n := bits.toNat
  let negative := n.testBit 63
  let biased := n / leadingBit % 2048
  let fraction := n % leadingBit
  if biased = 2047 then
    if fraction = 0 then .infinite negative else .nan
  else if biased = 0 then .finite negative fraction minExponent
  else .finite negative (leadingBit + fraction) (biased - 1075)

def ofFloat (x : Float) : Binary64 := ofBits x.toBits

/-- The natural number nearest to `num / den`; a tie goes to the even one. -/
def roundToEven (num den : Nat) : Nat :=
  let q := num / den
  match compare (2 * (num % den)) den with
  | .lt => q
  | .gt => q + 1
  | .eq => if q % 2 = 0 then q else q + 1

/-- `num * base ^ k` over `den`, with a negative power moved to the denominator. -/
def scale (base num den : Nat) (k : Int) : Nat × Nat :=
  match k with
  | .ofNat k => (num * base.pow k, den)
  | .negSucc k => (num, den * base.pow (k + 1))

/-- The greatest `l` with `2 ^ l ≤ num / den`, for positive `num` and `den`. -/
def floorLog2 (num den : Nat) : Int :=
  let l : Int := Int.ofNat num.log2 - Int.ofNat den.log2
  let (n, d) := scale 2 num den (-l)
  if d ≤ n then l else l - 1

/-- The bits of infinity; every finite magnitude has smaller bits. -/
def infinityBits : Nat := 2047 * leadingBit

/-- The bits of the magnitude nearest to `num / den`, for positive `num` and `den`. A significand that
rounds up to the next power of two carries into the exponent. -/
def magnitudeBits (num den : Nat) : Nat :=
  let exponent := max (floorLog2 num den - 52) minExponent
  let (n, d) := scale 2 num den (-exponent)
  let significand := roundToEven n d
  let bits :=
    if significand < leadingBit then significand
    else (exponent + 1075).toNat * leadingBit + (significand - leadingBit)
  min bits infinityBits

/-- The float nearest to `± digits * 10 ^ power`. -/
def ofDecimal (negative : Bool) (digits : Nat) (power : Int) : Float :=
  let places : Int := (Nat.toDigits 10 digits).length
  let magnitude :=
    if digits = 0 ∨ places + power < -330 then 0
    else if 330 < places + power then infinityBits
    else
      let (n, d) := scale 10 digits 1 power
      magnitudeBits n d
  Float.ofBits (UInt64.ofNat (magnitude + if negative then 1 <<< 63 else 0))

end Binary64

end Independence
