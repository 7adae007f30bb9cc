import MatrixCode.Number.Binary

/-!
Decimal digits of a positive double `m * 2 ^ q`. `shortest` finds the fewest
digits that still read back as the same double, and among those the nearest;
`rounded` finds a fixed number of digits, halves going to the even digit.
-/

namespace MatrixCode

-- Powers of natural numbers are the core ones, whatever other instances are in scope.
attribute [local instance (high)] instPowNat

/-- The number `0.d₁d₂… * 10 ^ point`, where `d₁d₂…` are the digits of
`coefficient`. -/
structure Decimal where
  coefficient : Nat
  point : Int
  deriving DecidableEq, Repr

namespace Decimal

def digits (d : Decimal) : List Char := (Nat.repr d.coefficient).toList

/-- True if `num / den < 10 ^ power`. -/
def belowPower (num den : Nat) (power : Int) : Bool :=
  let (n, d) := Binary.scaleDown 10 num den power
  n < d

/-- The first power of ten above `num / den`, searched upward from `power`. -/
def pointFrom (num den : Nat) : Nat → Int → Int
  | 0, power => power
  | fuel + 1, power => if belowPower num den power then power else pointFrom num den fuel (power + 1)

/-- The decimal point of `num / den`: the `k` with `10 ^ (k - 1) ≤ num / den < 10 ^ k`.
The search starts at most five below it. -/
def pointOf (num den : Nat) : Int :=
  let bits : Int := (num.log2 : Int) - (den.log2 : Int)
  pointFrom num den 8 ((bits - 1) * 30103 / 100000 - 1)

/-- A trailing zero carries no digit. -/
def trim : Nat → Nat → Nat
  | 0, c => c
  | fuel + 1, c => if c % 10 = 0 ∧ c ≠ 0 then trim fuel (c / 10) else c

/-- Of the two neighbours of `value / den` among the natural numbers, the one
between `low / den` and `high / den`; if both are, the nearer, and the upper one
when they are equally near. `closed` says whether the ends belong to the interval. -/
def within (value low high den : Nat) (closed : Bool) : Option Nat :=
  let c := value / den
  let lower := if closed then low ≤ c * den else low < c * den
  let upper := if closed then (c + 1) * den ≤ high else (c + 1) * den < high
  if upper ∧ (¬lower ∨ den ≤ 2 * (value % den)) then some (c + 1)
  else if lower then some c
  else none

/-- The numbers that read back as `m * 2 ^ q`, over the unit `2 ^ (q - 2)`. Below
the smallest mantissa of a binade the doubles are twice as dense. -/
def interval (m : Nat) (q : Int) : Nat × Nat :=
  (if m = 2 ^ (52 : Nat) ∧ Binary.leastExponent < q then 4 * m - 1 else 4 * m - 2, 4 * m + 2)

def shortest (m : Nat) (q : Int) : Decimal :=
  let (low, high) := interval m q
  let (num, den) := Binary.scaleDown 2 (4 * m) 1 (2 - q)
  let point := pointOf num den
  let candidate (count : Nat) : Option Decimal :=
    let power := point - count
    let at? (n : Nat) : Nat × Nat :=
      let (a, b) := Binary.scaleDown 2 n 1 (2 - q)
      Binary.scaleDown 10 a b power
    let (value, unit) := at? (4 * m)
    (within value (at? low).1 (at? high).1 unit (m % 2 = 0)).map fun c =>
      ⟨trim 20 c, if c = 10 ^ count then point + 1 else point⟩
  ((List.range' 1 17).findSome? candidate).getD ⟨0, 0⟩

def rounded (count m : Nat) (q : Int) : Decimal :=
  let (num, den) := Binary.scaleDown 2 m 1 (-q)
  let point := pointOf num den
  let (n, d) := Binary.scaleDown 10 num den (point - count)
  let c := Binary.divideToEven n d
  if c = 10 ^ count then ⟨10 ^ (count - 1), point + 1⟩ else ⟨c, point⟩

end Decimal
end MatrixCode
