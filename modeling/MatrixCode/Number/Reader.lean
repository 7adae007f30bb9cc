import MatrixCode.Number.Binary
import MatrixCode.Number.Word

/-!
Reading numbers. An integer is an optional sign and digits, within the range of
a word. A double is an optional sign and either a word for an infinity or for
what is not a number, in any case, or digits with an optional point and exponent.
-/

namespace MatrixCode
namespace Reader

-- Powers of natural numbers are the core ones, whatever other instances are in scope.
attribute [local instance (high)] instPowNat

def digitValue (c : Char) : Nat := c.toNat - '0'.toNat

/-- The number written by the digits, read on from `value`. -/
def digitsFrom (value : Nat) (cs : List Char) : Nat :=
  cs.foldl (fun v c => 10 * v + digitValue c) value

def digitsValue (cs : List Char) : Nat := digitsFrom 0 cs

/-- Splits off a leading sign; true means minus. -/
def sign : List Char → Bool × List Char
  | '-' :: cs => (true, cs)
  | '+' :: cs => (false, cs)
  | cs => (false, cs)

/-- A whole number without sign: one digit or more and nothing else. -/
def natural? (cs : List Char) : Option Nat :=
  if cs ≠ [] ∧ cs.all Char.isDigit then some (digitsValue cs) else none

def integer? (cs : List Char) : Option Int :=
  let (negative, rest) := sign cs
  (natural? rest).map fun n => if negative then -(n : Int) else n

def word? (cs : List Char) : Option Int64 := (integer? cs).bind Word.ofInt?

/-- The exponent after a mantissa; no text at all means zero. -/
def exponent? : List Char → Option Int
  | [] => some 0
  | c :: cs => if c = 'e' ∨ c = 'E' then integer? cs else none

/-- Digits, an optional point with more digits, and an optional exponent. -/
def decimal? (negative : Bool) (cs : List Char) : Option Float :=
  let whole := cs.takeWhile Char.isDigit
  let rest := cs.dropWhile Char.isDigit
  let (fraction, rest) := match rest with
    | '.' :: more => (more.takeWhile Char.isDigit, more.dropWhile Char.isDigit)
    | _ => ([], rest)
  if whole = [] ∧ fraction = [] then none
  else (exponent? rest).map fun e =>
    Binary.ofScientific negative (digitsFrom (digitsValue whole) fraction) (e - fraction.length)

def double? (cs : List Char) : Option Float :=
  let (negative, rest) := sign cs
  match String.ofList (rest.map Char.toLower) with
  | "inf" | "infinity" => some (Binary.infinity negative)
  | "nan" => some (Binary.ofMagnitude negative (2047 * 2 ^ (52 : Nat) + 2 ^ (51 : Nat)))
  | _ => decimal? negative rest

end Reader
end MatrixCode
