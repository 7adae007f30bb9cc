import MatrixCode.Number.Digits

/-!
The text of a double. `literal` writes a floating point literal that reads back
as the same double, `plain` never uses an exponent, and `significant` writes a
fixed number of digits.
-/

namespace MatrixCode
namespace Decimal

def zeros (count : Nat) : List Char := List.replicate count '0'

/-- Positional notation. A whole number gets `.0` when `keepPoint` is set. -/
def positional (d : Decimal) (keepPoint : Bool) : List Char :=
  let ds := d.digits
  if d.point ≤ 0 then '0' :: '.' :: (zeros (-d.point).toNat ++ ds)
  else
    let whole := d.point.toNat
    if ds.length ≤ whole then
      ds ++ zeros (whole - ds.length) ++ if keepPoint then ['.', '0'] else []
    else ds.take whole ++ '.' :: ds.drop whole

/-- One digit before the point, then the exponent without padding. -/
def scientific (d : Decimal) : List Char :=
  let mantissa := match d.digits with
    | [] => []
    | [c] => [c]
    | c :: rest => c :: '.' :: rest
  mantissa ++ 'e' :: (toString (d.point - 1)).toList

end Decimal

namespace NumberText

def signed (negative : Bool) (text : List Char) : String :=
  String.ofList (if negative then '-' :: text else text)

/-- The shared part of all layouts: words for what is not finite, and the sign. -/
def ofFloat (x : Float) (finite : Nat → Int → List Char) : String :=
  match Binary.decode x with
  | .notANumber => "NaN"
  | .infinite negative => signed negative ['i', 'n', 'f']
  | .finite negative m q => signed negative (finite m q)

/-- Exponents from -4 to 15 are written out, all others in scientific notation. -/
def literal (x : Float) : String :=
  ofFloat x fun m q =>
    if m = 0 then ['0', '.', '0']
    else
      let d := Decimal.shortest m q
      if -4 < d.point ∧ d.point ≤ 16 then d.positional true else d.scientific

def plain (x : Float) : String :=
  ofFloat x fun m q => if m = 0 then ['0'] else (Decimal.shortest m q).positional false

def significant (count : Nat) (x : Float) : String :=
  ofFloat x fun m q => if m = 0 then ['0'] else (Decimal.rounded count m q).scientific

end NumberText
end MatrixCode
