import MatrixCode.Number.Text
import MatrixCode.Number.Word

/-!
What can go wrong in a kernel, and the words for it. A kernel that works on a state
leaves one also when it fails.
-/

namespace MatrixCode

inductive Fault where
  | singular
  | notSquare (rows cols : Nat)
  /-- The two shapes do not fit the operation. -/
  | dimensionMismatch (op : String) (lhsRows lhsCols rhsRows rhsCols : Nat)
  | indexOutOfBounds (index : Int64) (length : Nat)
  | negativeIndex (index : Int64)
  | indexOverflow
  /-- Division by zero, or of the least word by minus one. -/
  | integerDivision (a b : Int64)
  | zeroStep
  | notScalar (rows cols : Nat)
  | notVector (op : String) (rows cols : Nat)
  | empty (op : String)
  | unsupportedNorm (order : Float)
  /-- A matrix without elements has no singular value decomposition, and singular values
  that are not numbers have no order. -/
  | noDecomposition
  deriving DecidableEq, Repr

namespace Fault

def shape (rows cols : Nat) : String := toString rows ++ "x" ++ toString cols

def message : Fault → String
  | singular => "matrix is singular"
  | notSquare rows cols => "matrix must be square, got " ++ shape rows cols
  | dimensionMismatch op lr lc rr rc =>
    op ++ ": incompatible shapes " ++ shape lr lc ++ " and " ++ shape rr rc
  | indexOutOfBounds index length =>
    "index " ++ Word.text index ++ " out of bounds for length " ++ toString length
  | negativeIndex index => "negative index " ++ Word.text index
  | indexOverflow => "index arithmetic overflowed"
  | integerDivision a b => "integer division " ++ Word.text a ++ " / " ++ Word.text b ++ " is undefined"
  | zeroStep => "sequence step must not be zero"
  | notScalar rows cols => "expected a 1x1 matrix, got " ++ shape rows cols
  | notVector op rows cols => op ++ ": expected a vector, got " ++ shape rows cols
  | empty op => op ++ ": matrix is empty"
  | unsupportedNorm order => "normP: unsupported order " ++ NumberText.plain order ++ " for a matrix"
  | noDecomposition => "matrix has no singular value decomposition"

end Fault

/-- What a computation on a state gives where it succeeds: a result, and the state that it leaves. -/
def completed {ε σ α : Type} (x : ExceptT ε (StateM σ) α) (s : σ) : Except ε (α × σ) :=
  match x.run.run s with
  | (.ok a, s') => .ok (a, s')
  | (.error e, _) => .error e

end MatrixCode
