/-!
Doubles as exact dyadic rationals. `decode` reads the bits of a double as
`m * 2 ^ q`; `nearest` goes back from an arbitrary ratio, rounding to the
nearest double and, between two, to the one with the even mantissa. Everything
in between is arithmetic on natural numbers.
-/

namespace MatrixCode
namespace Binary

-- Powers of natural numbers are the core ones, whatever other instances are in scope.
attribute [local instance (high)] instPowNat

/-- What a double stands for. `finite negative m q` is `m * 2 ^ q`, negated when
`negative` holds; zero is `finite negative 0 q`. -/
inductive Decoded where
  | notANumber
  | infinite (negative : Bool)
  | finite (negative : Bool) (mantissa : Nat) (exponent : Int)
  deriving DecidableEq, Repr

/-- The exponent of the smallest positive double. -/
def leastExponent : Int := -1074

/-- The exponent of the largest finite doubles. -/
def greatestExponent : Int := 971

def decode (x : Float) : Decoded :=
  let bits : Nat := x.toBits.toNat
  let negative := 2 ^ (63 : Nat) ≤ bits
  let biased : Nat := bits / 2 ^ (52 : Nat) % 2 ^ (11 : Nat)
  let fraction : Nat := bits % 2 ^ (52 : Nat)
  if biased = 2047 then
    if fraction = 0 then .infinite negative else .notANumber
  else if biased = 0 then
    .finite negative fraction leastExponent
  else
    .finite negative (2 ^ (52 : Nat) + fraction) ((biased : Int) - 1075)

/-- True for every double with the sign bit set, zero included. -/
def isNegative (x : Float) : Bool :=
  match decode x with
  | .notANumber => false
  | .infinite negative | .finite negative _ _ => negative

/-- The double with the given sign whose magnitude has these bits. -/
def ofMagnitude (negative : Bool) (bits : Nat) : Float :=
  Float.ofBits (UInt64.ofNat (bits + if negative then 2 ^ (63 : Nat) else 0))

def infinity (negative : Bool) : Float := ofMagnitude negative (2047 * 2 ^ (52 : Nat))

def zero (negative : Bool) : Float := ofMagnitude negative 0

/-- The quotient rounded to a natural number, halves going to the even one. -/
def divideToEven (num den : Nat) : Nat :=
  let quotient := num / den
  let doubled := 2 * (num % den)
  if doubled < den ∨ (doubled = den ∧ quotient % 2 = 0) then quotient else quotient + 1

/-- `num / den` divided by `base ^ power`, as a ratio again. -/
def scaleDown (base num den : Nat) (power : Int) : Nat × Nat :=
  if 0 ≤ power then (num, den * base ^ power.toNat) else (num * base ^ (-power).toNat, den)

/-- The exponent under which `num / den` has a 53-bit mantissa, or the least
exponent when the value is too small for that. -/
def mantissaExponent (num den : Nat) : Int :=
  let guess : Int := (num.log2 : Int) - (den.log2 : Int) - 52
  let (n, d) := scaleDown 2 num den guess
  max leastExponent (if n / d < 2 ^ (52 : Nat) then guess - 1 else guess)

/-- The double nearest to `num / den`; infinity when the ratio is beyond the
largest double by half a unit or more. -/
def nearest (negative : Bool) (num den : Nat) : Float :=
  if num = 0 then zero negative
  else
    let q := mantissaExponent num den
    let (n, d) := scaleDown 2 num den q
    let m := divideToEven n d
    let (m, q) := if m = 2 ^ (53 : Nat) then (2 ^ (52 : Nat), q + 1) else (m, q)
    if greatestExponent < q then infinity negative
    else if m < 2 ^ (52 : Nat) then ofMagnitude negative m
    else ofMagnitude negative ((q + 1075).toNat * 2 ^ (52 : Nat) + (m - 2 ^ (52 : Nat)))

/-- The double nearest to `mantissa * 10 ^ power`. Powers that decide the result
on their own are not expanded. -/
def ofScientific (negative : Bool) (mantissa : Nat) (power : Int) : Float :=
  if mantissa = 0 then zero negative
  else if 310 < power then infinity negative
  else if power + (mantissa.log2 / 3 + 1 : Nat) < -330 then zero negative
  else
    let (num, den) := scaleDown 10 mantissa 1 (-power)
    nearest negative num den

def ofInt (i : Int) : Float := nearest (i < 0) i.natAbs 1

/-- The integer part of a finite double, toward zero. -/
def truncate (negative : Bool) (mantissa : Nat) (exponent : Int) : Int :=
  let (n, d) := scaleDown 2 mantissa 1 (-exponent)
  if negative then -((n / d : Nat) : Int) else (n / d : Nat)

/-- True for finite doubles without a fractional part. -/
def isWhole (x : Float) : Bool :=
  match decode x with
  | .finite _ m q => let (n, d) := scaleDown 2 m 1 (-q); n % d = 0
  | _ => false

/-- The integer part as a 64-bit word; values outside the word's range go to its
ends, and a number that is none goes to zero. -/
def toWord (x : Float) : Int64 :=
  match decode x with
  | .notANumber => 0
  | .infinite negative => if negative then Int64.minValue else Int64.maxValue
  | .finite negative m q =>
    let i := truncate negative m q
    if i < Int64.minValue.toInt then Int64.minValue
    else if Int64.maxValue.toInt < i then Int64.maxValue
    else Int64.ofInt i

end Binary
end MatrixCode
